import Turbovec.Lib.Grid

/-!
# Runs that can panic

A run ends with a value, with an error it returns, or in a panic: an index or a slice out of range, a
machine word that overflows, a division by zero, an allocation past what a vector may hold. A function
whose panics are modelled refines its total form when it always ends as that form does.
-/

namespace Panic

open Slice Grid

/-- How a run ends. -/
inductive Run (ε α : Type) where
  | ok (a : α)
  | err (e : ε)
  | panic
deriving DecidableEq, Repr

namespace Run

variable {ε α β : Type}

protected def bind (x : Run ε α) (f : α → Run ε β) : Run ε β :=
  match x with
  | ok a => f a
  | err e => err e
  | panic => panic

instance : Monad (Run ε) where
  pure := ok
  bind := Run.bind

instance : LawfulMonad (Run ε) :=
  LawfulMonad.mk' (Run ε) (fun x => by cases x <;> rfl) (fun _ _ => rfl)
    fun x _ _ => by cases x <;> rfl

@[simp] theorem ok_bind (a : α) (f : α → Run ε β) : (ok a >>= f) = f a := rfl

@[simp] theorem err_bind (e : ε) (f : α → Run ε β) : (err e >>= f) = err e := rfl

@[simp] theorem panic_bind (f : α → Run ε β) : (panic >>= f) = panic := rfl

@[simp] theorem pure_eq (a : α) : (pure a : Run ε α) = ok a := rfl

/-- A run that cannot panic. -/
def ofExcept : Except ε α → Run ε α
  | .ok a => ok a
  | .error e => err e

/-- `?` on an option: the error is `e`. -/
def ofOption (e : ε) : Option α → Run ε α
  | some a => ok a
  | none => err e

@[simp] theorem ofExcept_ok (a : α) : ofExcept (.ok a : Except ε α) = ok a := rfl

@[simp] theorem ofExcept_error (e : ε) : ofExcept (.error e : Except ε α) = err e := rfl

@[simp] theorem ofOption_some (e : ε) (a : α) : ofOption e (some a) = ok a := rfl

@[simp] theorem ofOption_none (e : ε) : ofOption e (none : Option α) = err e := rfl

theorem ofExcept_ne_panic (x : Except ε α) : ofExcept x ≠ panic := by
  cases x <;> simp [ofExcept]

theorem ofExcept_eq_ok {x : Except ε α} {a : α} : ofExcept x = ok a ↔ x = .ok a := by
  cases x <;> simp [ofExcept]

theorem bind_ok_iff {x : Run ε α} {f : α → Run ε β} {b : β} : (x >>= f) = ok b ↔ ∃ a, x = ok a ∧ f a = ok b := by
  cases x with
  | ok a => simp
  | err e => simp
  | panic => simp

/-- A step after a run that refines its total form. -/
theorem ofExcept_bind {x : Run ε α} {y : Except ε α} {f : α → Run ε β} {g : α → Except ε β}
    (hx : x = ofExcept y) (hf : ∀ a, y = .ok a → f a = ofExcept (g a)) :
    (x >>= f) = ofExcept (y >>= g) := by
  subst hx
  cases y with
  | ok a => exact hf a rfl
  | error e => rfl

/-- A step after a run whose value the total form knows without it. -/
theorem ofExcept_bind_const {γ : Type} {y : Except ε α} {c : γ} {f : γ → Run ε β} {g : α → Except ε β}
    (hf : ∀ a, y = .ok a → f c = ofExcept (g a)) :
    (ofExcept (y >>= fun _ => pure c) >>= f) = ofExcept (y >>= g) := by
  cases y with
  | ok a => exact hf a rfl
  | error e => rfl

/-- The same, for a total form that returns an option. -/
theorem ofOption_bind {e : ε} {x : Run ε α} {y : Option α} {f : α → Run ε β} {g : α → Option β}
    (hx : x = ofOption e y) (hf : ∀ a, y = some a → f a = ofOption e (g a)) :
    (x >>= f) = ofOption e (y >>= g) := by
  subst hx
  cases y with
  | some a => exact hf a rfl
  | none => rfl

/-- The option a run that returns or gives up yields to its caller. -/
def attempt : Run ε α → Run β (Option α)
  | ok a => ok (some a)
  | err _ => ok none
  | panic => panic

@[simp] theorem attempt_ofOption (e : ε) (y : Option α) :
    (attempt (ofOption e y) : Run β (Option α)) = ok y := by
  cases y <;> rfl

/-- A loop whose every iteration refines its total form, under an invariant of the total loop that may
speak of the items left. -/
theorem foldlM_ofExcept {f : β → α → Run ε β} {g : β → α → Except ε β} (I : List α → β → Prop)
    (hstep : ∀ a l b, I (a :: l) b → f b a = ofExcept (g b a))
    (hkeep : ∀ a l b b', I (a :: l) b → g b a = .ok b' → I l b') (l : List α) {b : β} (hb : I l b) :
    l.foldlM f b = ofExcept (l.foldlM g b) := by
  induction l generalizing b with
  | nil => rfl
  | cons a l ih =>
    rw [List.foldlM_cons, List.foldlM_cons]
    exact ofExcept_bind (hstep a l b hb) fun b' hb' => ih (hkeep a l b b' hb hb')

/-- The same, for a total form that returns an option. -/
theorem foldlM_ofOption {e : ε} {f : β → α → Run ε β} {g : β → α → Option β} (I : List α → β → Prop)
    (hstep : ∀ a l b, I (a :: l) b → f b a = ofOption e (g b a))
    (hkeep : ∀ a l b b', I (a :: l) b → g b a = some b' → I l b') (l : List α) {b : β} (hb : I l b) :
    l.foldlM f b = ofOption e (l.foldlM g b) := by
  induction l generalizing b with
  | nil => rfl
  | cons a l ih =>
    rw [List.foldlM_cons, List.foldlM_cons]
    exact ofOption_bind (hstep a l b hb) fun b' hb' => ih (hkeep a l b b' hb hb')

/-- What every iteration of a loop keeps, the loop keeps. -/
theorem foldlM_keeps {g : β → α → Except ε β} (I : β → Prop) {l : List α}
    (hkeep : ∀ a ∈ l, ∀ b b', I b → g b a = .ok b' → I b') {b b' : β} (hb : I b)
    (h : l.foldlM g b = .ok b') : I b' := by
  induction l generalizing b with
  | nil =>
    cases h
    exact hb
  | cons a l ih =>
    rw [List.foldlM_cons] at h
    cases hg : g b a with
    | error e =>
      rw [hg] at h
      cases h
    | ok b1 =>
      rw [hg] at h
      exact ih (fun a ha => hkeep a (List.mem_cons_of_mem _ ha))
        (hkeep a List.mem_cons_self b b1 hb hg) h

/-- A loop that succeeds has taken each item. -/
theorem exists_of_foldlM {f : β → α → Run ε β} {l : List α} {b b' : β} (h : l.foldlM f b = ok b') {a : α}
    (ha : a ∈ l) : ∃ s s', f s a = ok s' := by
  induction l generalizing b with
  | nil => exact absurd ha List.not_mem_nil
  | cons c l ih =>
    rw [List.foldlM_cons, bind_ok_iff] at h
    obtain ⟨s, hs, h⟩ := h
    rcases List.mem_cons.mp ha with rfl | ha
    · exact ⟨b, s, hs⟩
    · exact ih h ha

/-- A loop whose every iteration succeeds. -/
theorem foldlM_ok {f : β → α → Run ε β} {g : β → α → β} (I : β → Prop) (l : List α) {b : β}
    (hb : I b) (hstep : ∀ b a, a ∈ l → I b → f b a = ok (g b a) ∧ I (g b a)) :
    l.foldlM f b = ok (l.foldl g b) := by
  induction l generalizing b with
  | nil => rfl
  | cons a l ih =>
    obtain ⟨h, hI⟩ := hstep b a List.mem_cons_self hb
    rw [List.foldlM_cons, h, ok_bind, List.foldl_cons]
    exact ih hI fun b a ha => hstep b a (List.mem_cons_of_mem _ ha)

theorem mapM_ok {f : α → Run ε β} {g : α → β} {l : List α} (h : ∀ a ∈ l, f a = ok (g a)) :
    l.mapM f = ok (l.map g) := by
  induction l with
  | nil => rfl
  | cons a l ih =>
    rw [List.mapM_cons, h a List.mem_cons_self, ok_bind,
      ih fun a ha => h a (List.mem_cons_of_mem _ ha)]
    rfl

/-- A loop that checks each value and stops at the first it refuses. -/
theorem mapM_checked {f : α → Run ε β} {g : α → β} {p : β → Bool} {e : ε} {l : List α}
    (h : ∀ a ∈ l, f a = if p (g a) then ok (g a) else err e) :
    l.mapM f = if (l.map g).all p then ok (l.map g) else err e := by
  induction l with
  | nil => rfl
  | cons a l ih =>
    rw [List.mapM_cons, h a List.mem_cons_self]
    have ih := ih fun a ha => h a (List.mem_cons_of_mem _ ha)
    cases hp : p (g a) with
    | false => simp [hp]
    | true =>
      rw [if_pos rfl, ok_bind, ih]
      cases hl : (l.map g).all p with
      | false => simp [hp, hl]
      | true => simp [hp, hl]

end Run

open Run

variable {ε α : Type}

/-! ## Machine words -/

/-- One past the largest `usize`. -/
def USIZE : ℕ := 2 ^ 64

/-- The most bytes an allocation may have. -/
def ISIZE_MAX : ℕ := 2 ^ 63 - 1

/-- A sum or a product of `usize` values: nothing it passes through exceeds its result. -/
def usize (x : ℕ) : Run ε ℕ := if x < USIZE then ok x else panic

def usub (a b : ℕ) : Run ε ℕ := if b ≤ a then ok (a - b) else panic

def udiv (a b : ℕ) : Run ε ℕ := if b = 0 then panic else ok (a / b)

def umod (a b : ℕ) : Run ε ℕ := if b = 0 then panic else ok (a % b)

/-- Room for `n` items of `size` bytes. -/
def alloc (n size : ℕ) : Run ε Unit := if n * size ≤ ISIZE_MAX then ok () else panic

def assert (c : Bool) : Run ε Unit := if c then ok () else panic

theorem usize_ok {x : ℕ} (h : x < USIZE) : (usize x : Run ε ℕ) = ok x := if_pos h

theorem usub_ok {a b : ℕ} (h : b ≤ a) : (usub a b : Run ε ℕ) = ok (a - b) := if_pos h

theorem udiv_ok {a b : ℕ} (h : b ≠ 0) : (udiv a b : Run ε ℕ) = ok (a / b) := if_neg h

theorem umod_ok {a b : ℕ} (h : b ≠ 0) : (umod a b : Run ε ℕ) = ok (a % b) := if_neg h

theorem alloc_ok {n size : ℕ} (h : n * size ≤ ISIZE_MAX) : (alloc n size : Run ε Unit) = ok () :=
  if_pos h

/-! ## Slices -/

/-- `l.get(off..off + len)` -/
def getRange (l : List α) (off len : ℕ) : Run ε (Option (List α)) := do
  let _ ← usize (off + len)
  return slice? l off len

/-- `l[off..off + len]` -/
def slice (l : List α) (off len : ℕ) : Run ε (List α) := do
  let _ ← usize (off + len)
  match slice? l off len with
  | some xs => ok xs
  | none => panic

/-- `l[i]` -/
def index (l : List α) (i : ℕ) : Run ε α :=
  match l[i]? with
  | some a => ok a
  | none => panic

/-- `l[i] = a` -/
def store (l : List α) (i : ℕ) (a : α) : Run ε (List α) :=
  if i < l.length then ok (l.set i a) else panic

/-- `l[off..off + len].copy_from_slice(data)` -/
def copyFrom (l : List α) (off len : ℕ) (data : List α) : Run ε (List α) := do
  let _ ← slice l off len
  if data.length = len then ok (overwrite l off data) else panic

theorem getRange_ok {l : List α} {off len : ℕ} (h : off + len < USIZE) :
    (getRange l off len : Run ε _) = ok (slice? l off len) := by
  rw [getRange, usize_ok h]
  rfl

theorem slice_ok {l : List α} {off len : ℕ} (hl : l.length < USIZE) (h : off + len ≤ l.length) :
    (slice l off len : Run ε _) = ok ((l.drop off).take len) := by
  rw [slice, usize_ok (by omega), ok_bind, slice?_of_le h]

theorem index_ok [Zero α] {l : List α} {i : ℕ} (h : i < l.length) :
    (index l i : Run ε α) = ok (entry l i) := by
  rw [index, getElem?_eq_entry h]

theorem store_ok {l : List α} {i : ℕ} {a : α} (h : i < l.length) :
    (store l i a : Run ε _) = ok (l.set i a) := if_pos h

theorem copyFrom_ok {l data : List α} {off len : ℕ} (hl : l.length < USIZE)
    (h : off + len ≤ l.length) (hd : data.length = len) :
    (copyFrom l off len data : Run ε _) = ok (overwrite l off data) := by
  rw [copyFrom, slice_ok hl h, ok_bind, if_pos hd]

/-- A loop of stores that stay in range. -/
theorem foldlM_store {ι : Type} {f : List α → ι → Run ε (List α)} {pos : ι → ℕ} {val : ι → α}
    {xs : List ι} {l : List α}
    (h : ∀ l' x, x ∈ xs → l'.length = l.length → f l' x = store l' (pos x) (val x))
    (hpos : ∀ x ∈ xs, pos x < l.length) : xs.foldlM f l = ok (scatter pos val xs l) := by
  refine foldlM_ok (fun l' => l'.length = l.length) xs rfl fun l' x hx hl' => ?_
  rw [h l' x hx hl', store_ok (hl' ▸ hpos x hx)]
  exact ⟨rfl, by rw [List.length_set, hl']⟩

end Panic
