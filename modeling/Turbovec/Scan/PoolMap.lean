import Turbovec.Lib.Threads
import Turbovec.Lib.Slice
import Mathlib.Data.List.Basic

/-!
# The work-sharing map

`pool_map_spin` as the owner and its helpers taking atomic steps over the shared cells, in any order. A
helper is a node of the tree of spawns, named by the way from the root, the last turn first.
-/

namespace Turbovec
namespace Scan
namespace PoolMap

open Threads

variable {ρ : Type*}

/-! ## The call -/

/-- The arguments, the pool's size, and whether the two optional closures are given. -/
structure Job (ρ : Type*) where
  n : ℕ
  threads : ℕ
  ownerPre : Bool
  ownerFirst : Bool
  work : ℕ → ρ

/-- `(current_num_threads().max(1) - 1).min(n - 1)` -/
def Job.helpers (J : Job ρ) : ℕ := min (max J.threads 1 - 1) (J.n - 1)

/-- A helper in the tree of spawns; `false` is the left subtree. -/
abbrev Node := List Bool

/-- The owner, or a helper. -/
abbrev Who := Option Node

/-- The shared cells. The last four record what happened and are read by no step. -/
structure Cells (ρ : Type*) where
  go : Bool
  next : ℕ
  done : ℕ
  slots : ℕ → Option ρ
  /-- The helpers spawned, each with its argument of `spawn_tree`. -/
  spawned : Node → Option ℕ
  /-- The helpers whose closure has returned. -/
  finished : Node → Bool
  preDone : Bool
  started : ℕ → ℕ
  claimedBy : ℕ → Option Who

/-- A place in the closure `run`. -/
inductive RunPlace (ρ : Type*)
  | gate
  | claim
  | claimed (i : ℕ)
  | working (i : ℕ)
  | storing (i : ℕ) (r : ρ)
  | counting (i : ℕ)
  | out

/-- A participant's place. -/
inductive Place (ρ : Type*)
  | unborn
  | left (l r : ℕ)
  | right (r : ℕ)
  | ended
  | run (p : RunPlace ρ)
  | start
  | serialFirst
  | serial (i : ℕ) (acc : List ρ)
  | tree
  | pre
  | setGo
  | first
  | spin
  | join
  | collect
  | returned (rs : Option (List ρ))

/-- `spawn_tree(s, m, run)` up to its one spawn. -/
def spawnTree (s : Cells ρ) (p : Node) (m : ℕ) : Cells ρ :=
  if m = 0 then s else { s with spawned := Function.update s.spawned p (some m) }

/-- The sizes of the two subtrees under a node of size `m`. -/
def leftSize (m : ℕ) : ℕ := (m - 1) / 2

def rightSize (m : ℕ) : ℕ := m - 1 - leftSize m

/-- The closure `run`, one atomic step. -/
inductive RunStep (J : Job ρ) (t : Who) (s : Cells ρ) : RunPlace ρ → Cells ρ → RunPlace ρ → Prop
  | wait (h : s.go = false) : RunStep J t s .gate s .gate
  | pass (h : s.go = true) : RunStep J t s .gate s .claim
  | take (h : s.next < J.n) : RunStep J t s .claim
      { s with next := s.next + 1, claimedBy := Function.update s.claimedBy s.next (some t) } (.claimed s.next)
  | past (h : J.n ≤ s.next) : RunStep J t s .claim { s with next := s.next + 1 } .out
  | begin (i : ℕ) : RunStep J t s (.claimed i)
      { s with started := Function.update s.started i (s.started i + 1) } (.working i)
  | finish (i : ℕ) : RunStep J t s (.working i) s (.storing i (J.work i))
  | store (i : ℕ) (r : ρ) : RunStep J t s (.storing i r)
      { s with slots := Function.update s.slots i (some r) } (.counting i)
  | count (i : ℕ) : RunStep J t s (.counting i) { s with done := s.done + 1 } .claim

/-- One atomic step of a participant. -/
inductive Act (J : Job ρ) : Who → Cells ρ → Place ρ → Cells ρ → Place ρ → Prop
  | serialPre (s : Cells ρ) (h : J.n ≤ 1) : Act J none s .start { s with preDone := true } .serialFirst
  | serialFirst (s : Cells ρ) : Act J none s .serialFirst s (.serial 0 [])
  | serialItem (s : Cells ρ) (i : ℕ) (acc : List ρ) (h : i < J.n) : Act J none s (.serial i acc)
      { s with started := Function.update s.started i (s.started i + 1) } (.serial (i + 1) (acc ++ [J.work i]))
  | serialEnd (s : Cells ρ) (i : ℕ) (acc : List ρ) (h : J.n ≤ i) : Act J none s (.serial i acc) s (.returned (some acc))
  | enter (s : Cells ρ) (h : 1 < J.n) : Act J none s .start s .tree
  | tree (s : Cells ρ) : Act J none s .tree (spawnTree s [] J.helpers) .pre
  | pre (s : Cells ρ) (h : J.ownerPre = true) : Act J none s .pre { s with preDone := true } .setGo
  | noPre (s : Cells ρ) (h : J.ownerPre = false) : Act J none s .pre s .first
  | setGo (s : Cells ρ) : Act J none s .setGo { s with go := true } .first
  | first (s : Cells ρ) : Act J none s .first s (.run .gate)
  | run {t : Who} {s s' : Cells ρ} {p p' : RunPlace ρ} (h : RunStep J t s p s' p') : Act J t s (.run p) s' (.run p')
  | spinFrom (s : Cells ρ) : Act J none s (.run .out) s .spin
  | spinOn (s : Cells ρ) (h : s.done < J.n) : Act J none s .spin s .spin
  | spinLimit (s : Cells ρ) (h : s.done < J.n) : Act J none s .spin s .join
  | spinDone (s : Cells ρ) (h : J.n ≤ s.done) : Act J none s .spin s .join
  -- the scope returns once every spawned task has
  | join (s : Cells ρ) (h : ∀ p, s.spawned p ≠ none → s.finished p = true) : Act J none s .join s .collect
  | collect (s : Cells ρ) : Act J none s .collect s (.returned ((List.range J.n).mapM s.slots))
  | born (s : Cells ρ) (p : Node) (m : ℕ) (h : s.spawned p = some m) :
      Act J (some p) s .unborn s (.left (leftSize m) (rightSize m))
  | left (s : Cells ρ) (p : Node) (l r : ℕ) : Act J (some p) s (.left l r) (spawnTree s (false :: p) l) (.right r)
  | right (s : Cells ρ) (p : Node) (r : ℕ) : Act J (some p) s (.right r) (spawnTree s (true :: p) r) (.run .gate)
  | helperEnd (s : Cells ρ) (p : Node) : Act J (some p) s (.run .out)
      { s with finished := Function.update s.finished p true } .ended

/-- The call begins: nothing spawned or claimed, and the flag set when there is nothing to wait for. -/
def init (J : Job ρ) : World Who (Cells ρ) (Place ρ) where
  shared :=
    { go := !J.ownerPre, next := 0, done := 0, slots := fun _ => none, spawned := fun _ => none,
      finished := fun _ => false, preDone := !J.ownerPre, started := fun _ => 0, claimedBy := fun _ => none }
  place t := if t = none then .start else .unborn

/-! ## The tree of spawns -/

/-- The nodes of the tree under `p`, of size `m`. -/
def nodes (p : Node) (m : ℕ) : List Node :=
  if m = 0 then [] else p :: (nodes (false :: p) (leftSize m) ++ nodes (true :: p) (rightSize m))
termination_by m
decreasing_by all_goals (simp only [rightSize, leftSize]; omega)

theorem nodes_pos {p : Node} {m : ℕ} (h : m ≠ 0) :
    nodes p m = p :: (nodes (false :: p) (leftSize m) ++ nodes (true :: p) (rightSize m)) := by
  rw [nodes, if_neg h]

theorem nodes_zero (p : Node) : nodes p 0 = [] := by
  rw [nodes, if_pos rfl]

/-- `spawn_tree` names as many helpers as asked for. -/
theorem length_nodes (p : Node) (m : ℕ) : (nodes p m).length = m := by
  fun_induction nodes p m with
  | case1 p => rfl
  | case2 p m h ihl ihr =>
    rw [List.length_cons, List.length_append, ihl, ihr]
    unfold rightSize leftSize
    omega

theorem suffix_of_mem_nodes {p q : Node} {m : ℕ} (h : q ∈ nodes p m) : p <:+ q := by
  fun_induction nodes p m with
  | case1 p => cases h
  | case2 p m _ ihl ihr =>
    rcases List.mem_cons.mp h with rfl | h
    · exact List.suffix_refl q
    · rcases List.mem_append.mp h with h | h
      · exact (List.suffix_cons false p).trans (ihl h)
      · exact (List.suffix_cons true p).trans (ihr h)

theorem nodup_nodes (p : Node) (m : ℕ) : (nodes p m).Nodup := by
  fun_induction nodes p m with
  | case1 p => exact List.nodup_nil
  | case2 p m _ ihl ihr =>
    rw [List.nodup_cons, List.nodup_append]
    refine ⟨?_, ihl, ihr, ?_⟩
    · intro h
      have hlong (b : Bool) (h : b :: p <:+ p) : False := by
        have := h.length_le
        rw [List.length_cons] at this
        omega
      rcases List.mem_append.mp h with h | h
      · exact hlong _ (suffix_of_mem_nodes h)
      · exact hlong _ (suffix_of_mem_nodes h)
    · rintro q hl r hr rfl
      -- one node cannot lie under both turns
      obtain ⟨a, ha⟩ := suffix_of_mem_nodes hl
      obtain ⟨b, hb⟩ := suffix_of_mem_nodes hr
      have heq := List.append_inj' (ha.trans hb.symm) rfl
      cases heq.2

/-- The size of a node of the tree whose root has size `m`. -/
def sizeAt (m : ℕ) : Node → ℕ
  | [] => m
  | false :: p => leftSize (sizeAt m p)
  | true :: p => rightSize (sizeAt m p)

/-! ## The invariant -/

/-- An item was run once and its result stored. -/
def Complete (J : Job ρ) (s : Cells ρ) (i : ℕ) : Prop := s.started i = 1 ∧ s.slots i = some (J.work i)

/-- A node's children are spawned, where it has any. -/
def Children (s : Cells ρ) (p : Node) (m : ℕ) : Prop :=
  (leftSize m ≠ 0 → s.spawned (false :: p) ≠ none) ∧ (rightSize m ≠ 0 → s.spawned (true :: p) ≠ none)

/-- What holds of the cells at every time. -/
structure Kept (J : Job ρ) (s : Cells ρ) : Prop where
  go : s.go = true → s.preDone = true
  serial : J.n ≤ 1 → (∀ p, s.spawned p = none) ∧ ∀ i, s.claimedBy i = none
  below : ∀ i, s.claimedBy i ≠ none → i < s.next ∧ i < J.n
  claimed : 1 < J.n → ∀ i < J.n, i < s.next → s.claimedBy i ≠ none
  fresh : 1 < J.n → ∀ i, s.claimedBy i = none → s.started i = 0
  once : ∀ i, s.started i ≤ 1
  afterPre : ∀ i, s.started i ≠ 0 → s.preDone = true
  claimant : ∀ i p, s.claimedBy i = some (some p) → s.spawned p ≠ none
  complete : ∀ p, s.finished p = true → ∀ i, s.claimedBy i = some (some p) → Complete J s i
  tree : ∀ p m, s.spawned p = some m → m ≠ 0 ∧ m = sizeAt J.helpers p ∧ nodes p m ⊆ nodes [] J.helpers
  ended : ∀ p, s.finished p = true → s.spawned p ≠ none
  children : ∀ p m, s.finished p = true → s.spawned p = some m → Children s p m

/-- The item in a participant's hands. -/
def RunPlace.held : RunPlace ρ → Option ℕ
  | .claimed i => some i
  | .working i => some i
  | .storing i _ => some i
  | _ => none

def Place.held : Place ρ → Option ℕ
  | .run p => p.held
  | _ => none

/-- The places a helper can be at. -/
def Place.ofHelper : Place ρ → Bool
  | .unborn | .left .. | .right .. | .ended | .run .. => true
  | _ => false

/-- What holds at a place in `run`. -/
def RunAt (J : Job ρ) (t : Who) (s : Cells ρ) : RunPlace ρ → Prop
  | .gate => True
  | .claim => s.go = true
  | .claimed i => s.go = true ∧ s.claimedBy i = some t ∧ s.started i = 0
  | .working i => s.go = true ∧ s.claimedBy i = some t ∧ s.started i = 1
  | .storing i r => s.go = true ∧ s.claimedBy i = some t ∧ s.started i = 1 ∧ r = J.work i
  | .counting _ => s.go = true
  | .out => J.n ≤ s.next

/-- The whole tree is spawned. -/
def Grown (J : Job ρ) (s : Cells ρ) : Prop := ∀ p ∈ nodes [] J.helpers, s.spawned p ≠ none

/-- What holds at a participant's place. -/
def PlaceAt (J : Job ρ) (t : Who) (s : Cells ρ) : Place ρ → Prop
  | .unborn => t ≠ none
  | .left l r => ∃ p m, t = some p ∧ s.spawned p = some m ∧ l = leftSize m ∧ r = rightSize m
  | .right r => ∃ p m, t = some p ∧ s.spawned p = some m ∧ r = rightSize m ∧
      (leftSize m ≠ 0 → s.spawned (false :: p) ≠ none)
  | .ended => ∃ p, t = some p ∧ s.finished p = true
  | .run p => RunAt J t s p ∧ 1 < J.n ∧ (t = none → s.go = true ∧ (J.helpers ≠ 0 → s.spawned [] ≠ none)) ∧
      ∀ q, t = some q → ∃ m, s.spawned q = some m ∧ Children s q m
  | .start => t = none ∧ (∀ p, s.spawned p = none) ∧ (∀ i, s.started i = 0) ∧ (J.ownerPre = false → s.go = true)
  | .serialFirst => t = none ∧ J.n ≤ 1 ∧ s.preDone = true ∧ ∀ i, s.started i = 0
  | .serial i acc => t = none ∧ J.n ≤ 1 ∧ s.preDone = true ∧ i ≤ J.n ∧ acc = (List.range i).map J.work ∧
      (∀ j < i, s.started j = 1) ∧ ∀ j, i ≤ j → s.started j = 0
  | .tree => 1 < J.n ∧ (J.ownerPre = false → s.go = true)
  | .pre => 1 < J.n ∧ (J.ownerPre = false → s.go = true) ∧ (J.helpers ≠ 0 → s.spawned [] ≠ none)
  | .setGo => 1 < J.n ∧ s.preDone = true ∧ (J.helpers ≠ 0 → s.spawned [] ≠ none)
  | .first => 1 < J.n ∧ s.go = true ∧ (J.helpers ≠ 0 → s.spawned [] ≠ none)
  | .spin => 1 < J.n ∧ J.n ≤ s.next ∧ s.go = true ∧ (J.helpers ≠ 0 → s.spawned [] ≠ none)
  | .join => 1 < J.n ∧ J.n ≤ s.next ∧ s.go = true ∧ (J.helpers ≠ 0 → s.spawned [] ≠ none)
  | .collect => (∀ i < J.n, Complete J s i) ∧ Grown J s
  | .returned rs => rs = some ((List.range J.n).map J.work) ∧ (∀ i < J.n, s.started i = 1) ∧ Grown J s

/-- What holds of a participant. -/
structure At (J : Job ρ) (t : Who) (s : Cells ρ) (l : Place ρ) : Prop where
  place : PlaceAt J t s l
  items : ∀ i, s.claimedBy i = some t → l.held ≠ some i → Complete J s i
  alive : ∀ p, t = some p → l.ofHelper = true ∧ (l ≠ .ended → s.finished p = false)

/-- What a participant's step may change of what the others rely on. -/
structure Frame (J : Job ρ) (t : Who) (s s' : Cells ρ) : Prop where
  go : s.go = true → s'.go = true
  preDone : s.preDone = true → s'.preDone = true
  next : s.next ≤ s'.next
  claimedBy : ∀ u, u ≠ t → ∀ i, s'.claimedBy i = some u ↔ s.claimedBy i = some u
  started : ∀ u, u ≠ t → ∀ i, s.claimedBy i = some u → s'.started i = s.started i
  complete : ∀ i, Complete J s i → Complete J s' i
  once : ∀ i, s.started i = 1 → s'.started i = 1
  spawned : ∀ p m, s.spawned p = some m → s'.spawned p = some m
  finished : ∀ p, some p ≠ t → s'.finished p = s.finished p

theorem Frame.spawned_ne {J : Job ρ} {t : Who} {s s' : Cells ρ} (h : Frame J t s s') {p : Node}
    (hp : s.spawned p ≠ none) : s'.spawned p ≠ none := by
  obtain ⟨m, hm⟩ := Option.ne_none_iff_exists'.mp hp
  rw [h.spawned p m hm]
  exact Option.some_ne_none m

theorem Frame.children {J : Job ρ} {t : Who} {s s' : Cells ρ} (h : Frame J t s s') {p : Node} {m : ℕ}
    (hc : Children s p m) : Children s' p m :=
  ⟨fun hm => h.spawned_ne (hc.1 hm), fun hm => h.spawned_ne (hc.2 hm)⟩

variable {J : Job ρ} {t u : Who} {s s' : Cells ρ}

/-! ## Steps of the closure -/

/-- What a step of `run` keeps. -/
structure RunKept (J : Job ρ) (t : Who) (s s' : Cells ρ) (p' : RunPlace ρ) : Prop where
  kept : Kept J s'
  frame : Frame J t s s'
  place : RunAt J t s' p'
  items : ∀ i, s'.claimedBy i = some t → p'.held ≠ some i → Complete J s' i

theorem Frame.refl (J : Job ρ) (t : Who) (s : Cells ρ) : Frame J t s s :=
  ⟨id, id, Nat.le_refl _, fun _ _ _ => Iff.rfl, fun _ _ _ _ => rfl, fun _ => id, fun _ => id, fun _ _ => id,
    fun _ _ => rfl⟩

/-- Claiming the next item. -/
theorem take_spec (hk : Kept J s) (hn : 1 < J.n) (hlt : s.next < J.n) (hgo : s.go = true)
    (hitems : ∀ i, s.claimedBy i = some t → Complete J s i) (halive : ∀ p, t = some p → s.finished p = false)
    (hborn : ∀ p, t = some p → s.spawned p ≠ none) : RunKept J t s
      { s with next := s.next + 1, claimedBy := Function.update s.claimedBy s.next (some t) } (.claimed s.next) := by
  have hnone : s.claimedBy s.next = none := by
    by_contra h
    exact Nat.lt_irrefl _ (hk.below _ h).1
  have hother {i : ℕ} (hi : i ≠ s.next) : Function.update s.claimedBy s.next (some t) i = s.claimedBy i :=
    Function.update_of_ne hi _ _
  have hself : Function.update s.claimedBy s.next (some t) s.next = some t := Function.update_self _ _ _
  -- a participant other than the claimant has the items it had
  have hiff (u : Who) (hu : u ≠ t) (i : ℕ) :
      Function.update s.claimedBy s.next (some t) i = some u ↔ s.claimedBy i = some u := by
    by_cases hi : i = s.next
    · rw [hi, hself, hnone, Option.some.injEq]
      exact ⟨fun h => absurd h.symm hu, fun h => by cases h⟩
    · rw [hother hi]
  constructor
  · constructor
    · exact hk.go
    · intro h
      omega
    · intro i hi
      dsimp only at hi ⊢
      by_cases his : i = s.next
      · omega
      · rw [hother his] at hi
        have := hk.below i hi
        omega
    · intro _ i hin hi
      dsimp only at hi ⊢
      by_cases his : i = s.next
      · rw [his, hself]
        exact Option.some_ne_none _
      · rw [hother his]
        exact hk.claimed hn i hin (by omega)
    · intro _ i hi
      apply hk.fresh hn
      by_cases his : i = s.next
      · rw [his, hnone]
      · exact (hother his).symm.trans hi
    · exact hk.once
    · exact hk.afterPre
    · intro i p hi
      by_cases hp : some p = t
      · exact hborn p hp.symm
      · exact hk.claimant i p ((hiff _ hp i).mp hi)
    · intro p hfin i hi
      by_cases hp : some p = t
      · rw [halive p hp.symm] at hfin
        cases hfin
      · exact hk.complete p hfin i ((hiff _ hp i).mp hi)
    · exact hk.tree
    · exact hk.ended
    · exact hk.children
  · exact ⟨id, id, Nat.le_succ _, hiff, fun _ _ _ _ => rfl, fun _ => id, fun _ => id, fun _ _ => id, fun _ _ => rfl⟩
  · exact ⟨hgo, hself, hk.fresh hn _ hnone⟩
  · intro i hi hne
    have his : i ≠ s.next := fun h => hne (congrArg some h.symm)
    exact hitems i ((hother his).symm.trans hi)

/-- An item begun for the first time: whatever was begun stays begun, and nothing is begun twice. -/
theorem begun_once {started : ℕ → ℕ} {i : ℕ} (hzero : started i = 0) :
    Function.update started i (started i + 1) i = 1 ∧
      (∀ j, started j = 1 → Function.update started i (started i + 1) j = 1) ∧
      ∀ j, started j ≤ 1 → Function.update started i (started i + 1) j ≤ 1 := by
  have hself : Function.update started i (started i + 1) i = 1 := by
    rw [Function.update_self, hzero]
  have hcases (j : ℕ) : Function.update started i (started i + 1) j = 1 ∨
      Function.update started i (started i + 1) j = started j := by
    by_cases hji : j = i
    · rw [hji]
      exact Or.inl hself
    · exact Or.inr (Function.update_of_ne hji _ _)
  refine ⟨hself, fun j hj => ?_, fun j hj => ?_⟩ <;> have := hcases j <;> omega

/-- Running a claimed item. -/
theorem begin_spec (hk : Kept J s) {i : ℕ} (hgo : s.go = true) (hmine : s.claimedBy i = some t)
    (hzero : s.started i = 0) (hitems : ∀ j, s.claimedBy j = some t → some i ≠ some j → Complete J s j) :
    RunKept J t s { s with started := Function.update s.started i (s.started i + 1) } (.working i) := by
  have hother {j : ℕ} (hj : j ≠ i) : Function.update s.started i (s.started i + 1) j = s.started j :=
    Function.update_of_ne hj _ _
  obtain ⟨hself, hone, honce⟩ := begun_once hzero
  constructor
  · constructor
    · exact hk.go
    · exact hk.serial
    · exact hk.below
    · exact hk.claimed
    · intro hn j hj
      have hji : j ≠ i := by
        rintro rfl
        rw [hmine] at hj
        cases hj
      exact (hother hji).trans (hk.fresh hn j hj)
    · exact fun j => honce j (hk.once j)
    · intro j _
      exact hk.go hgo
    · exact hk.claimant
    · intro p hfin j hj
      exact ⟨hone j (hk.complete p hfin j hj).1, (hk.complete p hfin j hj).2⟩
    · exact hk.tree
    · exact hk.ended
    · exact hk.children
  · refine ⟨id, id, Nat.le_refl _, fun _ _ _ => Iff.rfl, ?_, fun j hj => ⟨hone j hj.1, hj.2⟩, hone, fun _ _ => id,
      fun _ _ => rfl⟩
    intro u hu j hj
    apply hother
    rintro rfl
    rw [hmine, Option.some.injEq] at hj
    exact hu hj.symm
  · exact ⟨hgo, hmine, hself⟩
  · intro j hj hne
    obtain ⟨h1, h2⟩ := hitems j hj hne
    exact ⟨hone j h1, h2⟩

/-- Storing an item's result. -/
theorem store_spec (hk : Kept J s) {i : ℕ} {r : ρ} (hgo : s.go = true) (hone : s.started i = 1) (hr : r = J.work i)
    (hitems : ∀ j, s.claimedBy j = some t → some i ≠ some j → Complete J s j) :
    RunKept J t s { s with slots := Function.update s.slots i (some r) } (.counting i) := by
  have hself : Function.update s.slots i (some r) i = some (J.work i) := by
    rw [Function.update_self, hr]
  have hcomplete (j : ℕ) (hj : Complete J s j) : Complete J { s with slots := Function.update s.slots i (some r) } j := by
    refine ⟨hj.1, ?_⟩
    by_cases hji : j = i
    · rw [hji]
      exact hself
    · exact (Function.update_of_ne hji _ _).trans hj.2
  constructor
  · exact ⟨hk.go, hk.serial, hk.below, hk.claimed, hk.fresh, hk.once, hk.afterPre, hk.claimant,
      fun p hfin j hj => hcomplete j (hk.complete p hfin j hj), hk.tree, hk.ended, hk.children⟩
  · exact ⟨id, id, Nat.le_refl _, fun _ _ _ => Iff.rfl, fun _ _ _ _ => rfl, hcomplete, fun _ => id, fun _ _ => id,
      fun _ _ => rfl⟩
  · exact hgo
  · intro j hj _
    by_cases hji : i = j
    · subst hji
      exact ⟨hone, hself⟩
    · exact hcomplete j (hitems j hj fun h => hji (Option.some.inj h))

/-- Only the counters move. -/
theorem counters_spec (hk : Kept J s) {next : ℕ} (done : ℕ) (hnext : s.next ≤ next)
    (hover : s.next = next ∨ J.n ≤ s.next) :
    Kept J { s with next := next, done := done } ∧ Frame J t s { s with next := next, done := done } := by
  constructor
  · refine ⟨hk.go, hk.serial, fun i hi => ?_, fun hn i hin _ => ?_, hk.fresh, hk.once, hk.afterPre, hk.claimant,
      hk.complete, hk.tree, hk.ended, hk.children⟩
    · exact ⟨Nat.lt_of_lt_of_le (hk.below i hi).1 hnext, (hk.below i hi).2⟩
    · apply hk.claimed hn i hin
      rcases hover with h | h
      · rw [h]
        assumption
      · omega
  · exact ⟨id, id, hnext, fun _ _ _ => Iff.rfl, fun _ _ _ _ => rfl, fun _ => id, fun _ => id, fun _ _ => id,
      fun _ _ => rfl⟩

/-- What a step of `run` keeps, whoever takes it. -/
theorem runStep_spec (hk : Kept J s) (hn : 1 < J.n) {p p' : RunPlace ρ} (h : RunStep J t s p s' p')
    (hat : RunAt J t s p) (hitems : ∀ i, s.claimedBy i = some t → p.held ≠ some i → Complete J s i)
    (halive : ∀ q, t = some q → s.finished q = false) (hborn : ∀ q, t = some q → s.spawned q ≠ none) :
    RunKept J t s s' p' := by
  cases h with
  | wait h => exact ⟨hk, Frame.refl J t s, trivial, hitems⟩
  | pass h => exact ⟨hk, Frame.refl J t s, h, hitems⟩
  | take h => exact take_spec hk hn h hat (fun i hi => hitems i hi (by simp [RunPlace.held])) halive hborn
  | past h =>
    obtain ⟨hk', hfr⟩ := counters_spec (t := t) hk s.done (Nat.le_succ s.next) (Or.inr h)
    exact ⟨hk', hfr, Nat.le_succ_of_le h, hitems⟩
  | begin i => exact begin_spec hk hat.1 hat.2.1 hat.2.2 hitems
  | finish i => exact ⟨hk, Frame.refl J t s, ⟨hat.1, hat.2.1, hat.2.2, rfl⟩, hitems⟩
  | store i r => exact store_spec hk hat.1 hat.2.2.1 hat.2.2.2 hitems
  | count i =>
    obtain ⟨hk', hfr⟩ := counters_spec (t := t) hk (s.done + 1) (Nat.le_refl s.next) (Or.inl rfl)
    exact ⟨hk', hfr, hat, hitems⟩

/-! ## Spawning -/

/-- Spawning a node of the tree, at its size. -/
theorem spawnTree_spec (hk : Kept J s) (hn : 1 < J.n) {p : Node} {m : ℕ} (hm : m = sizeAt J.helpers p)
    (hnodes : nodes p m ⊆ nodes [] J.helpers) (t : Who) : Kept J (spawnTree s p m) ∧ Frame J t s (spawnTree s p m) ∧
      (m ≠ 0 → (spawnTree s p m).spawned p ≠ none) := by
  unfold spawnTree
  split
  · exact ⟨hk, Frame.refl J t s, fun h => absurd ‹_› h⟩
  · rename_i hne
    have hself : Function.update s.spawned p (some m) p = some m := Function.update_self _ _ _
    have hmono (q : Node) (m' : ℕ) (hq : s.spawned q = some m') : Function.update s.spawned p (some m) q = some m' := by
      by_cases hqp : q = p
      · -- the node was spawned before, at the same size
        rw [hqp] at hq ⊢
        rw [hself, hm, (hk.tree p m' hq).2.1]
      · rw [Function.update_of_ne hqp, hq]
    have hfr : Frame J t s { s with spawned := Function.update s.spawned p (some m) } :=
      ⟨id, id, Nat.le_refl _, fun _ _ _ => Iff.rfl, fun _ _ _ _ => rfl, fun _ => id, fun _ => id, hmono, fun _ _ => rfl⟩
    refine ⟨⟨hk.go, fun h => by omega, hk.below, hk.claimed, hk.fresh, hk.once, hk.afterPre,
      fun i q hi => hfr.spawned_ne (hk.claimant i q hi), hk.complete, ?_, fun q hq => hfr.spawned_ne (hk.ended q hq), ?_⟩,
      hfr, fun _ => ?_⟩
    · intro q m' hq
      by_cases hqp : q = p
      · rw [hqp] at hq ⊢
        obtain rfl : m = m' := Option.some.inj (hself.symm.trans hq)
        exact ⟨hne, hm, hnodes⟩
      · exact hk.tree q m' ((Function.update_of_ne hqp _ _).symm.trans hq)
    · intro q m' hfin hq
      obtain ⟨m'', hq'⟩ := Option.ne_none_iff_exists'.mp (hk.ended q hfin)
      obtain rfl : m'' = m' := Option.some.inj ((hmono q m'' hq').symm.trans hq)
      exact hfr.children (hk.children q m'' hfin hq')
    · show Function.update s.spawned p (some m) p ≠ none
      rw [hself]
      exact Option.some_ne_none m

theorem nodes_left {p : Node} {m : ℕ} (h : m ≠ 0) : nodes (false :: p) (leftSize m) ⊆ nodes p m := by
  rw [nodes_pos h]
  exact List.Subset.trans (List.subset_append_left _ _) (List.subset_cons_self _ _)

theorem nodes_right {p : Node} {m : ℕ} (h : m ≠ 0) : nodes (true :: p) (rightSize m) ⊆ nodes p m := by
  rw [nodes_pos h]
  exact List.Subset.trans (List.subset_append_right _ _) (List.subset_cons_self _ _)

/-- Once every spawned helper has returned, the whole tree was spawned. -/
theorem grown_of_finished (hk : Kept J s) (hroot : J.helpers ≠ 0 → s.spawned [] ≠ none)
    (h : ∀ p, s.spawned p ≠ none → s.finished p = true) : Grown J s := by
  have hunder (p : Node) (m : ℕ) (hm : m = sizeAt J.helpers p) (hp : m ≠ 0 → s.spawned p ≠ none) :
      ∀ q ∈ nodes p m, s.spawned q ≠ none := by
    fun_induction nodes p m with
    | case1 p =>
      intro q hq
      cases hq
    | case2 p m hne ihl ihr =>
      obtain ⟨m', hm'⟩ := Option.ne_none_iff_exists'.mp (hp hne)
      obtain rfl : m' = m := (hk.tree p m' hm').2.1.trans hm.symm
      obtain ⟨hl, hr⟩ := hk.children p m' (h p (hp hne)) hm'
      intro q hq
      rcases List.mem_cons.mp hq with rfl | hq
      · exact hp hne
      · rcases List.mem_append.mp hq with hq | hq
        · exact ihl (congrArg leftSize hm) hl q hq
        · exact ihr (congrArg rightSize hm) hr q hq
  exact hunder [] J.helpers rfl hroot

/-- At the join every item is complete. -/
theorem complete_of_finished (hk : Kept J s) (hn : 1 < J.n) (hnext : J.n ≤ s.next)
    (hmine : ∀ i, s.claimedBy i = some none → Complete J s i) (h : ∀ p, s.spawned p ≠ none → s.finished p = true) :
    ∀ i < J.n, Complete J s i := by
  intro i hi
  obtain ⟨u, hu⟩ := Option.ne_none_iff_exists'.mp (hk.claimed hn i hi (Nat.lt_of_lt_of_le hi hnext))
  cases u with
  | none => exact hmine i hu
  | some p => exact hk.complete p (h p (hk.claimant i p hu)) i hu

/-! ## Every step -/

theorem preDone_spec (hk : Kept J s) (t : Who) : Kept J { s with preDone := true } ∧ Frame J t s { s with preDone := true } :=
  ⟨⟨fun _ => rfl, hk.serial, hk.below, hk.claimed, hk.fresh, hk.once, fun _ _ => rfl, hk.claimant, hk.complete, hk.tree,
    hk.ended, hk.children⟩, ⟨id, fun _ => rfl, Nat.le_refl _, fun _ _ _ => Iff.rfl, fun _ _ _ _ => rfl, fun _ => id,
    fun _ => id, fun _ _ => id, fun _ _ => rfl⟩⟩

theorem setGo_spec (hk : Kept J s) (hpre : s.preDone = true) (t : Who) :
    Kept J { s with go := true } ∧ Frame J t s { s with go := true } :=
  ⟨⟨fun _ => hpre, hk.serial, hk.below, hk.claimed, hk.fresh, hk.once, hk.afterPre, hk.claimant, hk.complete, hk.tree,
    hk.ended, hk.children⟩, ⟨fun _ => rfl, id, Nat.le_refl _, fun _ _ _ => Iff.rfl, fun _ _ _ _ => rfl, fun _ => id,
    fun _ => id, fun _ _ => id, fun _ _ => rfl⟩⟩

/-- A serial item. -/
theorem serial_spec (hk : Kept J s) (hn : J.n ≤ 1) (hpre : s.preDone = true) {i : ℕ} (hzero : s.started i = 0) (t : Who) :
    Kept J { s with started := Function.update s.started i (s.started i + 1) } ∧
      Frame J t s { s with started := Function.update s.started i (s.started i + 1) } := by
  have hnone := (hk.serial hn).2
  obtain ⟨-, hone, honce⟩ := begun_once hzero
  constructor
  · refine ⟨hk.go, hk.serial, hk.below, hk.claimed, fun h => by omega, fun j => honce j (hk.once j), fun _ _ => hpre,
      hk.claimant, fun p hfin j hj => ?_, hk.tree, hk.ended, hk.children⟩
    · have hj' : s.claimedBy j = some (some p) := hj
      rw [hnone j] at hj'
      cases hj'
  · refine ⟨id, id, Nat.le_refl _, fun _ _ _ => Iff.rfl, fun u _ j hj => ?_, fun j hj => ⟨hone j hj.1, hj.2⟩, hone,
      fun _ _ => id, fun _ _ => rfl⟩
    rw [hnone j] at hj
    cases hj

/-- A helper's closure returns. -/
theorem helperEnd_spec (hk : Kept J s) {p : Node} {m : ℕ} (hp : s.spawned p = some m) (hc : Children s p m)
    (hitems : ∀ i, s.claimedBy i = some (some p) → Complete J s i) :
    Kept J { s with finished := Function.update s.finished p true } ∧
      Frame J (some p) s { s with finished := Function.update s.finished p true } := by
  have hother {q : Node} (hq : q ≠ p) : Function.update s.finished p true q = s.finished q := Function.update_of_ne hq _ _
  constructor
  · refine ⟨hk.go, hk.serial, hk.below, hk.claimed, hk.fresh, hk.once, hk.afterPre, hk.claimant, fun q hfin i hi => ?_,
      hk.tree, fun q hfin => ?_, fun q m' hfin hq => ?_⟩
    · by_cases hqp : q = p
      · rw [hqp] at hi
        exact hitems i hi
      · exact hk.complete q ((hother hqp).symm.trans hfin) i hi
    · by_cases hqp : q = p
      · rw [hqp]
        exact hp ▸ Option.some_ne_none m
      · exact hk.ended q ((hother hqp).symm.trans hfin)
    · by_cases hqp : q = p
      · subst hqp
        obtain rfl : m = m' := Option.some.inj (hp.symm.trans hq)
        exact hc
      · exact hk.children q m' ((hother hqp).symm.trans hfin) hq
  · exact ⟨id, id, Nat.le_refl _, fun _ _ _ => Iff.rfl, fun _ _ _ _ => rfl, fun _ => id, fun _ => id, fun _ _ => id,
      fun q hq => hother fun h => hq (congrArg some h)⟩

theorem lt_of_spawned (hk : Kept J s) {p : Node} (hp : s.spawned p ≠ none) : 1 < J.n := by
  by_contra hn
  exact hp ((hk.serial (by omega)).1 p)

/-- A participant that moves to a place where it holds nothing keeps its items. -/
theorem At.items_of (ha : At J t s l) (hfr : Frame J t s s') (hclaim : s'.claimedBy = s.claimedBy)
    (hheld : l.held = none) : ∀ i, s'.claimedBy i = some t → Complete J s' i := by
  intro i hi
  rw [hclaim] at hi
  apply hfr.complete i
  apply ha.items i hi
  rw [hheld]
  exact Option.some_ne_none i ∘ Eq.symm

/-- What a step keeps: the cells, the participant's own place, and what the others rely on. -/
theorem act_spec {l l' : Place ρ} (h : Act J t s l s' l') (hk : Kept J s) (ha : At J t s l) :
    Kept J s' ∧ At J t s' l' ∧ Frame J t s s' := by
  have hrefl := Frame.refl J t s
  have hnotNone {p : Node} {P : Prop} (h : (none : Who) = some p) : P := by cases h
  cases h with
  | serialPre _ h =>
    obtain ⟨hk', hfr⟩ := preDone_spec hk none
    exact ⟨hk', ⟨⟨rfl, h, rfl, ha.place.2.2.1⟩, fun i hi _ => ha.items_of hfr rfl rfl i hi, fun p hp => hnotNone hp⟩, hfr⟩
  | serialFirst =>
    obtain ⟨-, hn, hpre, hzero⟩ := ha.place
    exact ⟨hk, ⟨⟨rfl, hn, hpre, Nat.zero_le _, rfl, fun _ h => absurd h (Nat.not_lt_zero _), fun j _ => hzero j⟩,
      fun i hi _ => ha.items_of hrefl rfl rfl i hi, fun p hp => hnotNone hp⟩, hrefl⟩
  | serialItem _ i acc h =>
    obtain ⟨-, hn, hpre, -, hacc, hdone, hzero⟩ := ha.place
    obtain ⟨hk', hfr⟩ := serial_spec hk hn hpre (hzero i (Nat.le_refl i)) none
    refine ⟨hk', ⟨⟨rfl, hn, hpre, h, ?_, fun j hj => ?_, fun j hj => ?_⟩,
      fun j hj _ => ha.items_of hfr rfl rfl j hj, fun p hp => hnotNone hp⟩, hfr⟩
    · rw [hacc, List.range_succ, List.map_append]
      rfl
    · rcases Nat.lt_succ_iff_lt_or_eq.mp hj with hj | rfl
      · exact hfr.once j (hdone j hj)
      · exact (Function.update_self ..).trans (congrArg (· + 1) (hzero j (Nat.le_refl j)))
    · exact (Function.update_of_ne (by omega) _ _).trans (hzero j (by omega))
  | serialEnd _ i acc h =>
    obtain ⟨-, hn, hpre, hle, hacc, hdone, -⟩ := ha.place
    obtain rfl : i = J.n := Nat.le_antisymm hle h
    have hempty : J.helpers = 0 := by
      unfold Job.helpers
      omega
    refine ⟨hk, ⟨⟨congrArg some hacc, hdone, fun p hp => ?_⟩, fun j hj _ => ha.items_of hrefl rfl rfl j hj,
      fun p hp => hnotNone hp⟩, hrefl⟩
    -- a job run serially has no helpers to wait for
    rw [hempty, nodes_zero] at hp
    cases hp
  | enter _ h => exact ⟨hk, ⟨⟨h, ha.place.2.2.2⟩, fun i hi _ => ha.items_of hrefl rfl rfl i hi, fun p hp => hnotNone hp⟩, hrefl⟩
  | tree =>
    obtain ⟨hk', hfr, hroot⟩ := spawnTree_spec hk ha.place.1 (p := []) (m := J.helpers) rfl (List.Subset.refl _) none
    have hclaim : (spawnTree s [] J.helpers).claimedBy = s.claimedBy := by
      unfold spawnTree
      split <;> rfl
    exact ⟨hk', ⟨⟨ha.place.1, fun h => hfr.go (ha.place.2 h), hroot⟩, fun i hi _ => ha.items_of hfr hclaim rfl i hi, fun p hp => hnotNone hp⟩, hfr⟩
  | pre _ h =>
    obtain ⟨hk', hfr⟩ := preDone_spec hk none
    exact ⟨hk', ⟨⟨ha.place.1, rfl, ha.place.2.2⟩, fun i hi _ => ha.items_of hfr rfl rfl i hi, fun p hp => hnotNone hp⟩, hfr⟩
  | noPre _ h =>
    exact ⟨hk, ⟨⟨ha.place.1, ha.place.2.1 h, ha.place.2.2⟩, fun i hi _ => ha.items_of hrefl rfl rfl i hi, fun p hp => hnotNone hp⟩, hrefl⟩
  | setGo =>
    obtain ⟨hn, hpre, hroot⟩ := ha.place
    obtain ⟨hk', hfr⟩ := setGo_spec hk hpre none
    exact ⟨hk', ⟨⟨hn, rfl, hroot⟩, fun i hi _ => ha.items_of hfr rfl rfl i hi, fun p hp => hnotNone hp⟩, hfr⟩
  | first =>
    obtain ⟨hn, hgo, hroot⟩ := ha.place
    exact ⟨hk, ⟨⟨trivial, hn, fun _ => ⟨hgo, hroot⟩, fun p hp => hnotNone hp⟩, fun i hi _ => ha.items_of hrefl rfl rfl i hi,
      fun p hp => hnotNone hp⟩, hrefl⟩
  | @run _ _ _ p p' h =>
    obtain ⟨hat, hn, hroot, hnode⟩ := ha.place
    have halive : ∀ q, t = some q → s.finished q = false := fun q hq => (ha.alive q hq).2 (by simp)
    have hborn : ∀ q, t = some q → s.spawned q ≠ none := by
      intro q hq
      obtain ⟨m, hm, -⟩ := hnode q hq
      exact hm ▸ Option.some_ne_none m
    obtain ⟨hk', hfr, hat', hitems'⟩ := runStep_spec hk hn h hat ha.items halive hborn
    refine ⟨hk', ⟨⟨hat', hn, fun ht => ⟨hfr.go (hroot ht).1, fun hh => hfr.spawned_ne ((hroot ht).2 hh)⟩, fun q hq => ?_⟩, hitems', fun q hq => ⟨rfl, fun _ => ?_⟩⟩, hfr⟩
    · obtain ⟨m, hm, hc⟩ := hnode q hq
      exact ⟨m, hfr.spawned q m hm, hfr.children hc⟩
    · cases h <;> exact halive q hq
  | spinFrom =>
    obtain ⟨hat, hn, hroot, -⟩ := ha.place
    exact ⟨hk, ⟨⟨hn, hat, (hroot rfl).1, (hroot rfl).2⟩, fun i hi _ => ha.items_of hrefl rfl rfl i hi, fun p hp => hnotNone hp⟩, hrefl⟩
  | spinOn _ h => exact ⟨hk, ha, hrefl⟩
  | spinLimit _ h =>
    exact ⟨hk, ⟨ha.place, fun i hi _ => ha.items_of hrefl rfl rfl i hi, fun p hp => hnotNone hp⟩, hrefl⟩
  | spinDone _ h =>
    exact ⟨hk, ⟨ha.place, fun i hi _ => ha.items_of hrefl rfl rfl i hi, fun p hp => hnotNone hp⟩, hrefl⟩
  | join _ h =>
    obtain ⟨hn, hnext, -, hroot⟩ := ha.place
    have hmine := ha.items_of hrefl rfl rfl
    -- an item that is taken is the caller's or a finished helper's, and either way it is done
    exact ⟨hk, ⟨⟨complete_of_finished hk hn hnext hmine h, grown_of_finished hk hroot h⟩, fun i hi _ => hmine i hi,
      fun p hp => hnotNone hp⟩, hrefl⟩
  | collect =>
    obtain ⟨hcomplete, hgrown⟩ := ha.place
    have hslots : (List.range J.n).mapM s.slots = some ((List.range J.n).map J.work) :=
      Slice.mapM_some fun i hi => (hcomplete i (List.mem_range.mp hi)).2
    exact ⟨hk, ⟨⟨hslots, fun i hi => (hcomplete i hi).1, hgrown⟩, fun i hi _ => ha.items_of hrefl rfl rfl i hi,
      fun p hp => hnotNone hp⟩, hrefl⟩
  | born _ p m h =>
    exact ⟨hk, ⟨⟨p, m, rfl, h, rfl, rfl⟩, fun i hi _ => ha.items_of hrefl rfl rfl i hi,
      fun q hq => ⟨rfl, fun _ => (ha.alive q hq).2 (by simp)⟩⟩, hrefl⟩
  | left _ p l r =>
    obtain ⟨q, m, hq, hm, rfl, rfl⟩ := ha.place
    obtain rfl := Option.some.inj hq
    obtain ⟨hne, hsize, hsub⟩ := hk.tree p m hm
    obtain ⟨hk', hfr, hchild⟩ := spawnTree_spec hk (lt_of_spawned hk (hm ▸ Option.some_ne_none m)) (p := false :: p)
      (congrArg leftSize hsize) (List.Subset.trans (nodes_left hne) hsub) (some p)
    have hsame : (spawnTree s (false :: p) (leftSize m)).claimedBy = s.claimedBy ∧
        (spawnTree s (false :: p) (leftSize m)).finished = s.finished := by
      unfold spawnTree
      split <;> exact ⟨rfl, rfl⟩
    refine ⟨hk', ⟨⟨p, m, rfl, hfr.spawned p m hm, rfl, hchild⟩, fun i hi _ => ha.items_of hfr hsame.1 rfl i hi,
      fun q hq => ⟨rfl, fun _ => ?_⟩⟩, hfr⟩
    rw [hsame.2]
    exact (ha.alive q hq).2 (by simp)
  | right _ p r =>
    obtain ⟨q, m, hq, hm, rfl, hleft⟩ := ha.place
    obtain rfl := Option.some.inj hq
    obtain ⟨hne, hsize, hsub⟩ := hk.tree p m hm
    have hn := lt_of_spawned hk (hm ▸ Option.some_ne_none m)
    obtain ⟨hk', hfr, hchild⟩ := spawnTree_spec hk hn (p := true :: p)
      (congrArg rightSize hsize) (List.Subset.trans (nodes_right hne) hsub) (some p)
    have hsame : (spawnTree s (true :: p) (rightSize m)).claimedBy = s.claimedBy ∧
        (spawnTree s (true :: p) (rightSize m)).finished = s.finished := by
      unfold spawnTree
      split <;> exact ⟨rfl, rfl⟩
    refine ⟨hk', ⟨⟨trivial, hn, (fun h => by cases h), fun q hq => ?_⟩, fun i hi _ => ha.items_of hfr hsame.1 rfl i hi,
      fun q hq => ⟨rfl, fun _ => ?_⟩⟩, hfr⟩
    · obtain rfl := Option.some.inj hq
      exact ⟨m, hfr.spawned p m hm, fun h => hfr.spawned_ne (hleft h), hchild⟩
    · rw [hsame.2]
      exact (ha.alive q hq).2 (by simp)
  | helperEnd _ p =>
    obtain ⟨-, -, -, hnode⟩ := ha.place
    obtain ⟨m, hm, hc⟩ := hnode p rfl
    have hmine := ha.items_of hrefl rfl rfl
    obtain ⟨hk', hfr⟩ := helperEnd_spec hk hm hc hmine
    exact ⟨hk', ⟨⟨p, rfl, Function.update_self ..⟩, fun i hi _ => ha.items_of hfr rfl rfl i hi, fun q _ => ⟨rfl, fun h => absurd rfl h⟩⟩, hfr⟩

/-- A helper that moves was spawned. -/
theorem act_spawned {p : Node} {l l' : Place ρ} (h : Act J (some p) s l s' l') (ha : At J (some p) s l) :
    s.spawned p ≠ none := by
  cases h with
  | run h =>
    obtain ⟨m, hm, -⟩ := ha.place.2.2.2 p rfl
    exact hm ▸ Option.some_ne_none m
  | born _ _ m h => exact h ▸ Option.some_ne_none m
  | left _ _ l r =>
    obtain ⟨q, m, hq, hm, -⟩ := ha.place
    obtain rfl := Option.some.inj hq
    exact hm ▸ Option.some_ne_none m
  | right _ _ r =>
    obtain ⟨q, m, hq, hm, -⟩ := ha.place
    obtain rfl := Option.some.inj hq
    exact hm ▸ Option.some_ne_none m
  | helperEnd =>
    obtain ⟨m, hm, -⟩ := ha.place.2.2.2 p rfl
    exact hm ▸ Option.some_ne_none m

/-- What holds in `run` is kept by another participant's step. -/
theorem RunAt.frame {p : RunPlace ρ} (h : RunAt J u s p) (hut : u ≠ t) (hfr : Frame J t s s') : RunAt J u s' p := by
  cases p with
  | gate => trivial
  | claim => exact hfr.go h
  | claimed i => exact ⟨hfr.go h.1, (hfr.claimedBy u hut i).mpr h.2.1, (hfr.started u hut i h.2.1).trans h.2.2⟩
  | working i => exact ⟨hfr.go h.1, (hfr.claimedBy u hut i).mpr h.2.1, (hfr.started u hut i h.2.1).trans h.2.2⟩
  | storing i r =>
    exact ⟨hfr.go h.1, (hfr.claimedBy u hut i).mpr h.2.1, (hfr.started u hut i h.2.1).trans h.2.2.1, h.2.2.2⟩
  | counting i => exact hfr.go h
  | out => exact Nat.le_trans h hfr.next

/-- What holds of a participant is kept by another's step; while the owner is before the pool nobody else moves. -/
theorem At.frame {l : Place ρ} (ha : At J u s l) (hk : Kept J s) (hut : u ≠ t) (hfr : Frame J t s s')
    (hsp : u = none → ∃ p, s.spawned p ≠ none) : At J u s' l := by
  have hgrown (h : Grown J s) : Grown J s' := fun p hp => hfr.spawned_ne (h p hp)
  refine ⟨?_, fun i hi hne => hfr.complete i (ha.items i ((hfr.claimedBy u hut i).mp hi) hne), fun p hp => ⟨(ha.alive p hp).1, fun hne => ?_⟩⟩
  · have hp := ha.place
    cases l with
    | unborn => exact hp
    | left l r =>
      obtain ⟨p, m, rfl, hm, hl, hr⟩ := hp
      exact ⟨p, m, rfl, hfr.spawned p m hm, hl, hr⟩
    | right r =>
      obtain ⟨p, m, rfl, hm, hr, hc⟩ := hp
      exact ⟨p, m, rfl, hfr.spawned p m hm, hr, fun h => hfr.spawned_ne (hc h)⟩
    | ended =>
      obtain ⟨p, rfl, hfin⟩ := hp
      exact ⟨p, rfl, (hfr.finished p hut).trans hfin⟩
    | run p =>
      obtain ⟨hat, hn, hroot, hnode⟩ := hp
      refine ⟨hat.frame hut hfr, hn, fun ht => ⟨hfr.go (hroot ht).1, fun hh => hfr.spawned_ne ((hroot ht).2 hh)⟩,
        fun q hq => ?_⟩
      obtain ⟨m, hm, hc⟩ := hnode q hq
      exact ⟨m, hfr.spawned q m hm, hfr.children hc⟩
    | start =>
      obtain ⟨p, hp'⟩ := hsp hp.1
      exact absurd (hp.2.1 p) hp'
    | serialFirst =>
      obtain ⟨p, hp'⟩ := hsp hp.1
      exact absurd ((hk.serial hp.2.1).1 p) hp'
    | serial i acc =>
      obtain ⟨p, hp'⟩ := hsp hp.1
      exact absurd ((hk.serial hp.2.1).1 p) hp'
    | tree => exact ⟨hp.1, fun h => hfr.go (hp.2 h)⟩
    | pre => exact ⟨hp.1, fun h => hfr.go (hp.2.1 h), fun h => hfr.spawned_ne (hp.2.2 h)⟩
    | setGo => exact ⟨hp.1, hfr.preDone hp.2.1, fun h => hfr.spawned_ne (hp.2.2 h)⟩
    | first => exact ⟨hp.1, hfr.go hp.2.1, fun h => hfr.spawned_ne (hp.2.2 h)⟩
    | spin => exact ⟨hp.1, Nat.le_trans hp.2.1 hfr.next, hfr.go hp.2.2.1, fun h => hfr.spawned_ne (hp.2.2.2 h)⟩
    | join => exact ⟨hp.1, Nat.le_trans hp.2.1 hfr.next, hfr.go hp.2.2.1, fun h => hfr.spawned_ne (hp.2.2.2 h)⟩
    | collect => exact ⟨fun i hi => hfr.complete i (hp.1 i hi), hgrown hp.2⟩
    | returned rs => exact ⟨hp.1, fun i hi => hfr.once i (hp.2.1 i hi), hgrown hp.2.2⟩
  · rw [hfr.finished p (hp ▸ hut)]
    exact (ha.alive p hp).2 hne

theorem outline (J : Job ρ) : Outline (Act J) (Kept J) (At J) where
  own h hk ha := ⟨(act_spec h hk ha).1, (act_spec h hk ha).2.1⟩
  other {t u s l s' l' m} htu h hk ha hu := by
    apply hu.frame hk (Ne.symm htu) (act_spec h hk ha).2.2
    rintro rfl
    cases t with
    | none => exact absurd rfl htu
    | some p => exact ⟨p, act_spawned h ha⟩

/-! ## Whole runs -/

theorem kept_init (J : Job ρ) : Kept J (init J).shared := by
  constructor
  · exact id
  · exact fun _ => ⟨fun _ => rfl, fun _ => rfl⟩
  · exact fun _ h => absurd rfl h
  · exact fun _ i _ h => absurd h (Nat.not_lt_zero i)
  · exact fun _ _ _ => rfl
  · exact fun _ => Nat.zero_le 1
  · exact fun _ h => absurd rfl h
  · exact fun _ _ h => by cases h
  · exact fun _ h => by cases h
  · exact fun _ _ h => by cases h
  · exact fun _ h => by cases h
  · exact fun _ _ h => by cases h

theorem at_init (J : Job ρ) (t : Who) : At J t (init J).shared ((init J).place t) := by
  refine ⟨?_, fun i hi => ?_, fun p hp => ⟨?_, fun _ => rfl⟩⟩
  · cases t with
    | none => exact ⟨rfl, fun _ => rfl, fun _ => rfl, fun h => congrArg (!·) h⟩
    | some p => exact Option.some_ne_none p
  · have hi' : (none : Option Who) = some t := hi
    cases hi'
  · rw [hp]
    rfl

/-! ## Progress -/

/-- In `run`, once the flag is set, there is a step to another place. -/
theorem run_moves {p : RunPlace ρ} (hgo : s.go = true) (hp : p ≠ .out) :
    ∃ s' p', RunStep J t s p s' p' ∧ p' ≠ p := by
  cases p with
  | gate => exact ⟨_, _, .pass hgo, by simp⟩
  | claim =>
    rcases Nat.lt_or_ge s.next J.n with h | h
    · exact ⟨_, _, .take h, by simp⟩
    · exact ⟨_, _, .past h, by simp⟩
  | claimed i => exact ⟨_, _, .begin i, by simp⟩
  | working i => exact ⟨_, _, .finish i, by simp⟩
  | storing i r => exact ⟨_, _, .store i r, by simp⟩
  | counting i => exact ⟨_, _, .count i, by simp⟩
  | out => exact absurd rfl hp

/-- A helper that was spawned and has not returned can move on once the flag is set. -/
theorem helper_moves {p : Node} {l : Place ρ} (hk : Kept J s) (ha : At J (some p) s l) (hgo : s.go = true)
    (hsp : s.spawned p ≠ none) (hfin : s.finished p = false) : ∃ s' l', Act J (some p) s l s' l' ∧ l' ≠ l := by
  have hn := lt_of_spawned hk hsp
  have hp := ha.place
  cases l with
  | unborn =>
    obtain ⟨m, hm⟩ := Option.ne_none_iff_exists'.mp hsp
    exact ⟨_, _, .born s p m hm, by simp⟩
  | left l r => exact ⟨_, _, .left s p l r, by simp⟩
  | right r => exact ⟨_, _, .right s p r, by simp⟩
  | ended =>
    obtain ⟨q, hq, hend⟩ := hp
    rw [← Option.some.inj hq, hfin] at hend
    cases hend
  | run r =>
    by_cases hr : r = .out
    · rw [hr]
      exact ⟨_, _, .helperEnd s p, by simp⟩
    · obtain ⟨s', r', hstep, hne⟩ := run_moves (t := some p) (J := J) hgo hr
      exact ⟨s', .run r', .run hstep, fun h => hne (Place.run.inj h)⟩
  | _ => cases (ha.alive p rfl).1

/-- Until the call returns, some participant can move to another place. -/
theorem moves {w : World Who (Cells ρ) (Place ρ)} (hr : Reaches (Act J) (init J) w) :
    (∃ rs, w.place none = .returned rs) ∨ ∃ t s' l', Act J t w.shared (w.place t) s' l' ∧ l' ≠ w.place t := by
  obtain ⟨hk, ha⟩ := (outline J).reaches hr (kept_init J) (at_init J)
  have hown := ha none
  generalize hl : w.place none = l at hown
  have hp := hown.place
  have hmove {s' : Cells ρ} {l' : Place ρ} (h : Act J none w.shared l s' l') (hne : l' ≠ l) :
      ∃ t s' l', Act J t w.shared (w.place t) s' l' ∧ l' ≠ w.place t := by
    refine ⟨none, s', l', ?_, ?_⟩
    · rwa [hl]
    · rwa [hl]
  cases l with
  | unborn => exact absurd rfl hp
  | left l r =>
    obtain ⟨p, -, h, -⟩ := hp
    cases h
  | right r =>
    obtain ⟨p, -, h, -⟩ := hp
    cases h
  | ended =>
    obtain ⟨p, h, -⟩ := hp
    cases h
  | run r =>
    by_cases hr : r = .out
    · subst hr
      exact Or.inr (hmove (.spinFrom _) (by simp))
    · obtain ⟨s', r', hstep, hne⟩ := run_moves (t := none) (J := J) (hp.2.2.1 rfl).1 hr
      exact Or.inr (hmove (.run hstep) fun h => hne (Place.run.inj h))
  | start =>
    rcases Nat.lt_or_ge 1 J.n with h | h
    · exact Or.inr (hmove (.enter _ h) (by simp))
    · exact Or.inr (hmove (.serialPre _ h) (by simp))
  | serialFirst => exact Or.inr (hmove (.serialFirst _) (by simp))
  | serial i acc =>
    rcases Nat.lt_or_ge i J.n with h | h
    · exact Or.inr (hmove (.serialItem _ i acc h) (by simp))
    · exact Or.inr (hmove (.serialEnd _ i acc h) (by simp))
  | tree => exact Or.inr (hmove (.tree _) (by simp))
  | pre =>
    cases h : J.ownerPre with
    | false => exact Or.inr (hmove (.noPre _ h) (by simp))
    | true => exact Or.inr (hmove (.pre _ h) (by simp))
  | setGo => exact Or.inr (hmove (.setGo _) (by simp))
  | first => exact Or.inr (hmove (.first _) (by simp))
  | spin =>
    rcases Nat.lt_or_ge w.shared.done J.n with h | h
    · exact Or.inr (hmove (.spinLimit _ h) (by simp))
    · exact Or.inr (hmove (.spinDone _ h) (by simp))
  | join =>
    -- either every spawned helper has returned, or one of them can move
    by_cases h : ∀ p, w.shared.spawned p ≠ none → w.shared.finished p = true
    · exact Or.inr (hmove (.join _ h) (by simp))
    · push Not at h
      obtain ⟨p, hsp, hfin⟩ := h
      obtain ⟨s', l', hact, hne⟩ := helper_moves hk (ha (some p)) hp.2.2.1 hsp (Bool.not_eq_true _ ▸ hfin)
      exact Or.inr ⟨some p, s', l', hact, hne⟩
  | collect => exact Or.inr (hmove (.collect _) (by simp))
  | returned rs => exact Or.inl ⟨rs, rfl⟩

/-- In every order of the steps no item starts before the owner's preparation returned and none starts twice; and
a call that returns has run every item once, returns the results in order, and started as many helpers as it
asked for. No order gets stuck: until the call returns, some participant can move to another place. -/
theorem poolMapSpin_once (J : Job ρ) {w : World Who (Cells ρ) (Place ρ)} (hr : Reaches (Act J) (init J) w) :
    (∀ i, w.shared.started i ≠ 0 → w.shared.preDone = true) ∧ (∀ i, w.shared.started i ≤ 1) ∧
      (∀ rs, w.place none = .returned rs →
        rs = some ((List.range J.n).map J.work) ∧ (∀ i < J.n, w.shared.started i = 1) ∧
          ∃ ps : List Node, ps.Nodup ∧ ps.length = J.helpers ∧ ∀ p, w.shared.spawned p ≠ none ↔ p ∈ ps) ∧
      ((∃ rs, w.place none = .returned rs) ∨ ∃ t s' l', Act J t w.shared (w.place t) s' l' ∧ l' ≠ w.place t) := by
  obtain ⟨hk, ha⟩ := (outline J).reaches hr (kept_init J) (at_init J)
  refine ⟨hk.afterPre, hk.once, fun rs hrs => ?_, moves hr⟩
  have hplace := (ha none).place
  rw [hrs] at hplace
  obtain ⟨hres, honce, hgrown⟩ := hplace
  refine ⟨hres, honce, nodes [] J.helpers, nodup_nodes _ _, length_nodes _ _, fun p => ⟨fun hp => ?_, hgrown p⟩⟩
  obtain ⟨m, hm⟩ := Option.ne_none_iff_exists'.mp hp
  obtain ⟨hne, -, hsub⟩ := hk.tree p m hm
  apply hsub
  rw [nodes_pos hne]
  exact List.mem_cons_self


/-- The cells and places after one more step. -/
theorem reaches_act {w₀ w : World Who (Cells ρ) (Place ρ)} (hr : Reaches (Act J) w₀ w) {t : Who} {s : Cells ρ} {l : Place ρ}
    (h : Act J t w.shared (w.place t) s l) : Reaches (Act J) w₀ ⟨s, Function.update w.place t l⟩ :=
  hr.tail (.mk t h)

/-- Two items on a pool of two threads. -/
def pairJob : Job ℕ := ⟨2, 2, true, false, fun i => i + 10⟩

/-- The owner takes the first item and its helper the second, in turns. -/
theorem poolMapSpin_once_pair : ∃ w, Reaches (Act pairJob) (init pairJob) w ∧
    w.shared.claimedBy 1 = some (some []) ∧ w.place none = .returned (some [10, 11]) ∧ ∀ i < 2, w.shared.started i = 1 := by
  have h0 := Relation.ReflTransGen.refl (r := Step (Act pairJob)) (a := init pairJob)
  have h1 := reaches_act (t := none) (reaches_act (t := none) h0 (.enter _ (by decide))) (.tree _)
  have h2 := reaches_act (t := some []) (reaches_act (t := some []) (reaches_act (t := some []) h1 (.born _ [] 1 rfl))
    (.left _ [] _ _)) (.right _ [] _)
  have h3 := reaches_act (t := none) (reaches_act (t := none) (reaches_act (t := none) h2 (.pre _ rfl)) (.setGo _)) (.first _)
  have h4 := reaches_act (t := some []) (reaches_act (t := none) h3 (.run (.pass rfl))) (.run (.pass rfl))
  have h5 := reaches_act (t := some []) (reaches_act (t := none) h4 (.run (.take (by decide)))) (.run (.take (by decide)))
  have h6 := reaches_act (t := none) (reaches_act (t := some []) h5 (.run (.begin _))) (.run (.begin _))
  have h7 := reaches_act (t := none) (reaches_act (t := some []) h6 (.run (.finish _))) (.run (.finish _))
  have h8 := reaches_act (t := some []) (reaches_act (t := none) h7 (.run (.store _ _))) (.run (.store _ _))
  have h9 := reaches_act (t := none) (reaches_act (t := some []) h8 (.run (.count _))) (.run (.count _))
  have h10 := reaches_act (t := none) (reaches_act (t := some []) h9 (.run (.past (by decide)))) (.run (.past (by decide)))
  have h11 := reaches_act (t := none) (reaches_act (t := some []) h10 (.helperEnd _ [])) (.spinFrom _)
  have h12 := reaches_act (t := none) h11 (.spinDone _ (by decide))
  have h13 := reaches_act (t := none) (reaches_act (t := none) h12 (.join _ fun p h => by
    cases p with
    | nil => rfl
    | cons => exact absurd rfl h)) (.collect _)
  refine ⟨_, h13, rfl, rfl, ?_⟩
  exact ((poolMapSpin_once pairJob h13).2.2.1 _ rfl).2.1

end PoolMap
end Scan
end Turbovec
