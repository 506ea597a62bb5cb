import Turbovec.Lib.Json
import Turbovec.Lib.Worklist

/-!
# The walk of a side-car

`_check_json_faithful` walks a payload before it is saved, with a stack and the identities of the containers it has
opened, and raises at a key that is no string and at a float that is not finite. Payloads are graphs: containers may be
shared and may contain themselves.
-/

namespace Turbovec.Python.JsonFaithful

open JsonText Relation

/-! ## Payloads -/

/-- A `float`. -/
structure F64 where
  bits : UInt64
deriving DecidableEq, Repr

namespace F64

def exponent (x : F64) : ℕ := x.bits.toNat / 2 ^ 52 % 2 ^ 11

def fraction (x : F64) : ℕ := x.bits.toNat % 2 ^ 52

/-- `math.isfinite` -/
def isFinite (x : F64) : Bool := decide (x.exponent ≠ 0x7FF)

/-- `math.isnan` -/
def isNan (x : F64) : Bool := decide (x.exponent = 0x7FF ∧ x.fraction ≠ 0)

/-- The sign bit. -/
def isNeg (x : F64) : Bool := decide (2 ^ 63 ≤ x.bits.toNat)

end F64

/-- A `str`: its code points, surrogates among them. -/
abbrev PyStr := List CodePoint

/-- An object of another type, as far as messages name it. -/
structure Opaque where
  id : ℕ
  typeName : String
  repr : String
  str : String
deriving DecidableEq, Repr

inductive Scalar
  | none
  | bool (b : Bool)
  | int (z : ℤ)
  | float (x : F64)
  | str (s : PyStr)
  | other (o : Opaque)
deriving DecidableEq, Repr

/-- A key of a dictionary: anything hashable, tuples among the others. -/
inductive Key
  | none
  | bool (b : Bool)
  | int (z : ℤ)
  | float (x : F64)
  | str (s : PyStr)
  | other (o : Opaque)
deriving DecidableEq, Repr

/-- `isinstance(key, str)`, and the string. -/
def Key.str? : Key → Option PyStr
  | .str s => some s
  | _ => Option.none

/-- A value, or a reference to a container by its identity. -/
inductive Obj (L : Type)
  | scalar (s : Scalar)
  | ref (l : L)

/-- A dictionary in insertion order. No string is a key twice. -/
structure PyDict (L : Type) where
  items : List (Key × Obj L)
  nodup : (items.filterMap fun p => p.1.str?).Nodup

inductive Cell (L : Type)
  | dict (d : PyDict L)
  | list (items : List (Obj L))
  | tuple (items : List (Obj L))

/-- What a container contains. -/
def Cell.children {L : Type} : Cell L → List (Obj L)
  | .dict d => d.items.map Prod.snd
  | .list items => items
  | .tuple items => items

/-- The containers by their identities. -/
abbrev Heap (L : Type) := L → Cell L

def Obj.children {L : Type} (h : Heap L) : Obj L → List (Obj L)
  | .ref l => (h l).children
  | .scalar _ => []

/-- `o'` is in the container `o`. -/
def Child {L : Type} (h : Heap L) (o o' : Obj L) : Prop := o' ∈ o.children h

def Reachable {L : Type} (h : Heap L) : Obj L → Obj L → Prop := ReflTransGen (Child h)

/-- A dictionary with a key that is no string, or a float that is not finite. -/
inductive Bad {L : Type} (h : Heap L) : Obj L → Prop
  | key {l : L} {d : PyDict L} {p : Key × Obj L} (hl : h l = .dict d) (hp : p ∈ d.items) (hk : p.1.str? = none) :
    Bad h (.ref l)
  | float {x : F64} (hx : x.isFinite = false) : Bad h (.scalar (.float x))

/-! ## The walk -/

/-- `key_in_parent` -/
inductive Crumb
  | key (s : PyStr)
  | index (i : ℕ)

/-- `(obj, parent_entry, key_in_parent)` -/
inductive Entry (L : Type)
  | root (obj : Obj L)
  | child (obj : Obj L) (parent : Entry L) (key : Crumb)

/-- `entry[0]` -/
def Entry.obj {L : Type} : Entry L → Obj L
  | .root obj => obj
  | .child obj _ _ => obj

/-- What the walk raises: a `TypeError` at a key, or a `ValueError` at a value. -/
inductive Refusal (L : Type)
  | key (k : Key) (entry : Entry L)
  | value (x : F64) (entry : Entry L)

def Refusal.entry {L : Type} : Refusal L → Entry L
  | .key _ entry => entry
  | .value _ entry => entry

section walk

variable {L : Type}

/-- The loop over `obj.items()`. -/
def pushItems (entry : Entry L) : List (Key × Obj L) → List (Entry L) → Except (Refusal L) (List (Entry L))
  | [], stack => .ok stack
  | (k, v) :: items, stack =>
    match k.str? with
    | none => .error (.key k entry)
    | some s => pushItems entry items (.child v entry (.key s) :: stack)

/-- The loop over `enumerate(obj)`. -/
def pushElems (entry : Entry L) : ℕ → List (Obj L) → List (Entry L) → List (Entry L)
  | _, [], stack => stack
  | i, v :: items, stack => pushElems entry (i + 1) items (.child v entry (.index i) :: stack)

variable [DecidableEq L]

/-- `while stack`; none when it is out of fuel. -/
def walk (h : Heap L) : ℕ → List (Entry L) → Finset L → Option (Except (Refusal L) Unit)
  | _, [], _ => some (.ok ())
  | 0, _ :: _, _ => none
  | fuel + 1, entry :: stack, seen =>
    match entry.obj with
    | .ref l =>
      if l ∈ seen then walk h fuel stack seen
      else match h l with
        | .dict d =>
          match pushItems entry d.items stack with
          | .error e => some (.error e)
          | .ok stack => walk h fuel stack (insert l seen)
        | .list items => walk h fuel (pushElems entry 0 items stack) (insert l seen)
        | .tuple items => walk h fuel (pushElems entry 0 items stack) (insert l seen)
    | .scalar (.float x) => if x.isFinite then walk h fuel stack seen else some (.error (.value x entry))
    | .scalar _ => walk h fuel stack seen

variable [Fintype L]

/-- How many places hold something. -/
def edges (h : Heap L) : ℕ := ∑ l, (h l).children.length

/-- `_check_json_faithful` -/
def checkJsonFaithful (h : Heap L) (payload : Obj L) : Option (Except (Refusal L) Unit) :=
  walk h (1 + edges h) [.root payload] ∅

end walk

/-! ## One turn -/

section turn

variable {L : Type}

/-- What the loop over the items pushes for one. -/
def itemEntry (entry : Entry L) (p : Key × Obj L) : Entry L := .child p.2 entry (.key (p.1.str?.getD []))

/-- What the loop over the elements pushes for one. -/
def elemEntry (entry : Entry L) (p : Obj L × ℕ) : Entry L := .child p.1 entry (.index p.2)

/-- The loop over the items raises at the first key that is no string. -/
theorem pushItems_eq (entry : Entry L) (items : List (Key × Obj L)) (stack : List (Entry L)) :
    pushItems entry items stack = match items.find? fun p => p.1.str?.isNone with
      | some p => .error (.key p.1 entry)
      | none => .ok ((items.map (itemEntry entry)).reverse ++ stack) := by
  induction items generalizing stack with
  | nil => rfl
  | cons p items ih =>
    obtain ⟨k, v⟩ := p
    cases hk : k.str? with
    | none =>
      have hfind : ((k, v) :: items).find? (fun p => p.1.str?.isNone) = some (k, v) := by
        rw [List.find?_cons_of_pos]
        rw [hk]
        rfl
      rw [pushItems, hk, hfind]
    | some s =>
      have hfind : ((k, v) :: items).find? (fun p => p.1.str?.isNone) = items.find? fun p => p.1.str?.isNone := by
        rw [List.find?_cons_of_neg]
        rw [hk]
        exact Bool.false_ne_true
      have hentry : itemEntry entry (k, v) = .child v entry (.key s) := by rw [itemEntry, hk]; rfl
      rw [pushItems, hk, hfind, List.map_cons, List.reverse_cons, List.append_assoc, hentry]
      exact ih _

theorem pushElems_eq (entry : Entry L) (i : ℕ) (items : List (Obj L)) (stack : List (Entry L)) :
    pushElems entry i items stack = ((items.zipIdx i).map (elemEntry entry)).reverse ++ stack := by
  induction items generalizing i stack with
  | nil => rfl
  | cons v items ih =>
    rw [pushElems, ih, List.zipIdx_cons, List.map_cons, List.reverse_cons, List.append_assoc]
    rfl

/-- The walk's turns over a heap. -/
def turns (h : Heap L) : Worklist.Walk (Entry L) (Obj L) L (Refusal L) where
  obj := Entry.obj
  place
    | .ref l => some l
    | .scalar _ => none
  visit entry := match entry.obj with
    | .ref l => match h l with
      | .dict d => match d.items.find? fun p => p.1.str?.isNone with
        | some p => .error (.key p.1 entry)
        | none => .ok (d.items.map (itemEntry entry))
      | .list items => .ok (items.zipIdx.map (elemEntry entry))
      | .tuple items => .ok (items.zipIdx.map (elemEntry entry))
    | .scalar (.float x) => if x.isFinite then .ok [] else .error (.value x entry)
    | .scalar _ => .ok []

variable {h : Heap L}

theorem map_obj_itemEntry (entry : Entry L) (items : List (Key × Obj L)) :
    (items.map (itemEntry entry)).map Entry.obj = items.map Prod.snd := by
  rw [List.map_map]
  rfl

theorem map_obj_elemEntry (entry : Entry L) (items : List (Obj L)) :
    (items.zipIdx.map (elemEntry entry)).map Entry.obj = items := by
  rw [List.map_map]
  exact List.zipIdx_map_fst 0 items

/-- What is raised is of a key of the entry's dictionary that is no string, or of the entry's float. -/
inductive Refusal.Right (h : Heap L) : Refusal L → Prop
  | key {l : L} {d : PyDict L} {p : Key × Obj L} {entry : Entry L} (ho : entry.obj = .ref l) (hl : h l = .dict d)
    (hp : p ∈ d.items) (hk : p.1.str? = none) : Right h (.key p.1 entry)
  | value {x : F64} {entry : Entry L} (ho : entry.obj = .scalar (.float x)) (hx : x.isFinite = false) :
    Right h (.value x entry)

/-- What a turn can do. -/
inductive Turn (h : Heap L) (entry : Entry L) : Except (Refusal L) (List (Entry L)) → Prop
  | raises {r : Refusal L} (hentry : r.entry = entry) (hr : r.Right h) : Turn h entry (.error r)
  | dict {l : L} {d : PyDict L} (ho : entry.obj = .ref l) (hl : h l = .dict d)
    (hkeys : ∀ p ∈ d.items, p.1.str? ≠ none) : Turn h entry (.ok (d.items.map (itemEntry entry)))
  | elems {l : L} {items : List (Obj L)} (ho : entry.obj = .ref l) (hl : h l = .list items ∨ h l = .tuple items) :
    Turn h entry (.ok (items.zipIdx.map (elemEntry entry)))
  | scalar {s : Scalar} (ho : entry.obj = .scalar s) (hs : ∀ x, s = .float x → x.isFinite = true) :
    Turn h entry (.ok [])

theorem visit_turn (h : Heap L) (entry : Entry L) : Turn h entry ((turns h).visit entry) := by
  unfold turns
  dsimp only
  cases ho : entry.obj with
  | ref l =>
    dsimp only
    cases hl : h l with
    | dict d =>
      dsimp only
      cases hfind : d.items.find? fun p => p.1.str?.isNone with
      | some p =>
        -- the first key that is no string is the one raised
        have hk : p.1.str?.isNone = true := List.find?_some (p := fun p : Key × Obj L => p.1.str?.isNone) hfind
        exact .raises rfl (.key ho hl (List.mem_of_find?_eq_some hfind) (Option.isNone_iff_eq_none.mp hk))
      | none =>
        refine .dict ho hl fun p hp hk => List.find?_eq_none.mp hfind p hp ?_
        rw [hk]
        rfl
    | list items => exact .elems ho (Or.inl hl)
    | tuple items => exact .elems ho (Or.inr hl)
  | scalar s =>
    cases s with
    | float x =>
      dsimp only
      split
      next hx =>
        refine .scalar ho fun y hy => ?_
        cases hy
        exact hx
      next hx => exact .raises rfl (.value ho (Bool.eq_false_of_not_eq_true hx))
    | none => exact .scalar ho nofun
    | bool b => exact .scalar ho nofun
    | int z => exact .scalar ho nofun
    | str s => exact .scalar ho nofun
    | other o => exact .scalar ho nofun

/-- A turn that does not raise is at a good object, and pushes its children. -/
theorem visit_ok {entry : Entry L} {out : List (Entry L)} (hv : (turns h).visit entry = .ok out) :
    ¬Bad h entry.obj ∧ out.map Entry.obj = entry.obj.children h := by
  have hturn := visit_turn h entry
  rw [hv] at hturn
  cases hturn with
  | dict ho hl hkeys =>
    rw [map_obj_itemEntry, ho, Obj.children, hl]
    refine ⟨?_, rfl⟩
    rintro (⟨hl', hp, hk⟩ | _)
    cases hl.symm.trans hl'
    exact hkeys _ hp hk
  | elems ho hl =>
    rw [map_obj_elemEntry, ho, Obj.children]
    refine ⟨?_, ?_⟩
    · rintro (⟨hl', -, -⟩ | _)
      rcases hl with hl | hl <;> cases hl.symm.trans hl'
    · rcases hl with hl | hl <;> rw [hl] <;> rfl
  | scalar ho hs =>
    rw [ho]
    refine ⟨?_, rfl⟩
    rintro (_ | hx)
    cases hx.symm.trans (hs _ rfl)

theorem visit_error {entry : Entry L} {r : Refusal L} (hv : (turns h).visit entry = .error r) :
    r.entry = entry ∧ r.Right h := by
  have hturn := visit_turn h entry
  rw [hv] at hturn
  cases hturn with
  | raises hentry hr => exact ⟨hentry, hr⟩

theorem Refusal.Right.bad {r : Refusal L} (hr : r.Right h) : Bad h r.entry.obj := by
  cases hr with
  | key ho hl hp hk =>
    rw [entry, ho]
    exact .key hl hp hk
  | value ho hx =>
    rw [entry, ho]
    exact .float hx

theorem turns_over (h : Heap L) : (turns h).Over (Child h) (Bad h) where
  inj := by
    rintro (s | l) (s' | l') k ho ho'
    · cases ho
    · cases ho
    · cases ho'
    · cases ho
      cases ho'
      rfl
  leaf := by
    rintro (s | l) o' ho
    · exact List.not_mem_nil
    · cases ho
  raised {n r} hv := by
    obtain ⟨hentry, hr⟩ := visit_error hv
    rw [← hentry]
    exact hr.bad
  passed {n out} hv := by
    obtain ⟨hgood, hout⟩ := visit_ok hv
    refine ⟨hgood, fun o => ?_⟩
    show o ∈ n.obj.children h ↔ _
    rw [← hout, List.mem_map]
    rfl

end turn

/-! ## Where an entry is -/

section place

variable {L : Type}

/-- What a crumb names in a container. -/
def Cell.At : Cell L → Crumb → Obj L → Prop
  | .dict d, .key s, v => (Key.str s, v) ∈ d.items
  | .dict _, .index _, _ => False
  | .list items, .index i, v => items[i]? = some v
  | .tuple items, .index i, v => items[i]? = some v
  | .list _, .key _, _ => False
  | .tuple _, .key _, _ => False

/-- The crumbs of an entry lead from the payload to its object. -/
inductive Entry.At (h : Heap L) (payload : Obj L) : Entry L → Prop
  | root : At h payload (.root payload)
  | child {parent : Entry L} {l : L} {key : Crumb} {v : Obj L} (hparent : At h payload parent)
    (hl : parent.obj = .ref l) (hv : (h l).At key v) : At h payload (.child v parent key)

theorem Key.str?_eq_some {k : Key} {s : PyStr} (hk : k.str? = some s) : k = .str s := by
  cases k with
  | str t => cases hk; rfl
  | none => cases hk
  | bool b => cases hk
  | int z => cases hk
  | float x => cases hk
  | other o => cases hk

/-- An entry's children are where their crumbs say. -/
theorem visit_at {h : Heap L} {payload : Obj L} {entry : Entry L} {out : List (Entry L)}
    (hentry : entry.At h payload) (hv : (turns h).visit entry = .ok out) : ∀ m ∈ out, m.At h payload := by
  intro m hm
  have hturn := visit_turn h entry
  rw [hv] at hturn
  cases hturn with
  | dict ho hl hkeys =>
    obtain ⟨⟨k, v⟩, hp, rfl⟩ := List.mem_map.mp hm
    cases hk : k.str? with
    | none => exact absurd hk (hkeys _ hp)
    | some s =>
      -- a string key is its own crumb
      rw [itemEntry, hk]
      rw [Key.str?_eq_some hk] at hp
      refine .child hentry ho ?_
      rw [hl]
      exact hp
  | elems ho hl =>
    obtain ⟨p, hp, rfl⟩ := List.mem_map.mp hm
    have hi := List.mk_mem_zipIdx_iff_getElem?.mp hp
    refine .child hentry ho ?_
    rcases hl with hl | hl
    · rw [hl]
      exact hi
    · rw [hl]
      exact hi
  | scalar ho hs => cases hm

end place

/-! ## The whole walk -/

section whole

variable {L : Type} [DecidableEq L] {h : Heap L}

theorem walk_eq (fuel : ℕ) (stack : List (Entry L)) (seen : Finset L) :
    walk h fuel stack seen = (turns h).run fuel stack seen := by
  induction fuel generalizing stack seen with
  | zero => cases stack <;> rfl
  | succ fuel ih =>
    cases stack with
    | nil => rfl
    | cons entry stack =>
      rw [walk, Worklist.Walk.run]
      unfold turns
      dsimp only
      cases ho : entry.obj with
      | ref l =>
        dsimp only
        split
        next => exact ih stack seen
        next =>
          cases h l with
          | dict d =>
            dsimp only
            rw [pushItems_eq]
            cases d.items.find? fun p => p.1.str?.isNone with
            | some p => rfl
            | none => exact ih _ _
          | list items =>
            dsimp only
            rw [pushElems_eq]
            exact ih _ _
          | tuple items =>
            dsimp only
            rw [pushElems_eq]
            exact ih _ _
      | scalar s =>
        cases s with
        | float x =>
          dsimp only
          split
          next => exact ih stack seen
          next => rfl
        | none => exact ih stack seen
        | bool b => exact ih stack seen
        | int z => exact ih stack seen
        | str s => exact ih stack seen
        | other o => exact ih stack seen

variable [Fintype L]

/-- The walk ends. -/
theorem walk_some (h : Heap L) (payload : Obj L) : ∃ r, checkJsonFaithful h payload = some r := by
  rw [checkJsonFaithful, walk_eq]
  -- a place is expanded once, so there are at most as many pushes as the heap has edges
  have hweight {entry : Entry L} {l : L} {out : List (Entry L)} (hl : (turns h).place ((turns h).obj entry) = some l)
      (hv : (turns h).visit entry = .ok out) : out.length ≤ (h l).children.length := by
    have hout := congrArg List.length (visit_ok hv).2
    have ho : entry.obj = .ref l := (turns_over h).inj hl rfl
    rw [List.length_map, ho] at hout
    exact hout.le
  refine Worklist.Walk.run_some hweight ?_
  rw [Finset.compl_empty]
  exact le_rfl

theorem walk_mono {payload : Obj L} {r : Except (Refusal L) Unit} (hr : checkJsonFaithful h payload = some r) {fuel : ℕ}
    (hfuel : 1 + edges h ≤ fuel) : walk h fuel [.root payload] ∅ = some r := by
  rw [checkJsonFaithful, walk_eq] at hr
  rw [walk_eq]
  exact Worklist.Walk.run_mono hfuel hr

/-- It raises exactly when something bad is reachable. -/
theorem walk_iff {payload : Obj L} {r : Except (Refusal L) Unit} (hr : checkJsonFaithful h payload = some r) :
    (∃ e, r = .error e) ↔ ∃ o, Reachable h payload o ∧ Bad h o := by
  rw [checkJsonFaithful, walk_eq] at hr
  exact Worklist.Walk.run_iff (turns_over h) hr

/-- What it raises is right, and the path in the message leads to it. -/
theorem walk_error {payload : Obj L} {r : Refusal L} (hr : checkJsonFaithful h payload = some (.error r)) :
    r.Right h ∧ r.entry.At h payload := by
  rw [checkJsonFaithful, walk_eq] at hr
  obtain ⟨entry, hat, hv⟩ := Worklist.Walk.run_error (P := Entry.At h payload)
    (fun entry out hat hv => visit_at hat hv) (fun entry hentry => by rw [List.mem_singleton.mp hentry]; exact .root) hr
  obtain ⟨rfl, hright⟩ := visit_error hv
  exact ⟨hright, hat⟩

end whole

/-! ## Messages -/

/-- `repr` and `str` of the values a message names. -/
structure Reprs where
  str : PyStr → String
  int : ℤ → String
  float : F64 → String

section messages

variable {L : Type} (R : Reprs)

def Crumb.text : Crumb → String
  | .key s => "[" ++ R.str s ++ "]"
  | .index i => "[" ++ R.int i ++ "]"

/-- The crumbs from the payload down. -/
def Entry.crumbs : Entry L → List Crumb
  | .root _ => []
  | .child _ parent key => parent.crumbs ++ [key]

/-- `_crumb_path` -/
def crumbPath (entry : Entry L) : String := "payload" ++ String.join (entry.crumbs.map (Crumb.text R))

def Key.typeName : Key → String
  | .none => "NoneType"
  | .bool _ => "bool"
  | .int _ => "int"
  | .float _ => "float"
  | .str _ => "str"
  | .other o => o.typeName

def Key.repr : Key → String
  | .none => "None"
  | .bool b => if b then "True" else "False"
  | .int z => R.int z
  | .float x => R.float x
  | .str s => R.str s
  | .other o => o.repr

/-- `{str(key)!r}` -/
def Key.strRepr : Key → String
  | .str s => R.str s
  | .other o => o.str
  | k => "'" ++ k.repr R ++ "'"

/-- The JSON token a float would be written as. -/
def token (x : F64) : String := if x.isNan then "NaN" else if x.isNeg then "-Infinity" else "Infinity"

def Refusal.message : Refusal L → String
  | .key k entry =>
    "side-car key " ++ k.repr R ++ " at " ++ crumbPath R entry ++ " is " ++ k.typeName ++ ", not " ++
      "str. JSON object keys are strings, so writing it " ++ "would stringify the key and silently merge it with " ++
      "any existing " ++ k.strRepr R ++ " key, losing data on " ++ "reload. Convert the key to a str before saving."
  | .value x entry =>
    "side-car value at " ++ crumbPath R entry ++ " is " ++ R.float x ++ ", " ++
      "which JSON cannot represent: it would be written as a bare " ++ token x ++
      " token that RFC 8259 forbids. Other JSON readers " ++ "reject the file (serde_json, JSON.parse) or silently " ++
      "rewrite the value to null (jq). Replace it with None or a " ++ "finite number before saving."

end messages

end Turbovec.Python.JsonFaithful
