import Turbovec.Lib.Slice
import Turbovec.Python.JsonFaithful

/-!
# The text of a side-car

`atomic_save` checks the payload and writes `json.dumps(payload, allow_nan=False)`. An accepted payload without a cycle
is written, and what is read back is the payload with its tuples as lists.
-/

namespace Turbovec.Python.JsonFaithful

open JsonText Relation

/-! ## `json.dumps` -/

/-- What `json.dumps` raises. -/
inductive DumpError
  | circular
  | outOfRange (x : F64)
  | notSerializable (o : Opaque)
  | badKey (o : Opaque)
deriving DecidableEq, Repr

section dumps

variable (C : Json.Floats F64)

def encodeFloat (x : F64) : Except DumpError (List Char) :=
  if x.isFinite then .ok (C.repr x) else .error (.outOfRange x)

def encodeScalar : Scalar → Except DumpError (List Char)
  | .none => .ok ['n', 'u', 'l', 'l']
  | .bool true => .ok ['t', 'r', 'u', 'e']
  | .bool false => .ok ['f', 'a', 'l', 's', 'e']
  | .int z => .ok (formatInt z)
  | .float x => encodeFloat C x
  | .str s => .ok (quote s)
  | .other o => .error (.notSerializable o)

/-- The quoted key: other scalars than strings are written as strings. -/
def encodeKey : Key → Except DumpError (List Char)
  | .none => .ok ('"' :: ['n', 'u', 'l', 'l'] ++ ['"'])
  | .bool true => .ok ('"' :: ['t', 'r', 'u', 'e'] ++ ['"'])
  | .bool false => .ok ('"' :: ['f', 'a', 'l', 's', 'e'] ++ ['"'])
  | .int z => .ok ('"' :: formatInt z ++ ['"'])
  | .float x => (encodeFloat C x).map fun t => '"' :: t ++ ['"']
  | .str s => .ok (quote s)
  | .other o => .error (.badKey o)

variable {L : Type} [DecidableEq L] (h : Heap L)

/-- The encoder, with the containers it is in. -/
def encode [Fintype L] (markers : Finset L) : Obj L → Except DumpError (List Char)
  | .scalar s => encodeScalar C s
  | .ref l =>
    match h l with
    | .dict d =>
      if d.items = [] then .ok ['{', '}']
      else if l ∈ markers then .error .circular
      else do
        let members ← d.items.mapM fun p => do
          let key ← encodeKey C p.1
          let value ← encode (insert l markers) p.2
          pure (key ++ ':' :: ' ' :: value)
        pure ('{' :: Json.joinComma members ++ ['}'])
    | .list items | .tuple items =>
      if items = [] then .ok ['[', ']']
      else if l ∈ markers then .error .circular
      else do
        let items ← items.mapM fun v => encode (insert l markers) v
        pure ('[' :: Json.joinComma items ++ [']'])
termination_by markersᶜ.card
decreasing_by
  all_goals
    rw [Finset.compl_insert]
    exact Finset.card_erase_lt_of_mem (Finset.mem_compl.mpr ‹l ∉ markers›)

/-- What `atomic_save` raises before it touches a file. -/
inductive SaveError (L : Type)
  | refused (r : Refusal L)
  | dumps (e : DumpError)

/-- `payload_str` of `atomic_save`. -/
def payloadStr [Fintype L] (payload : Obj L) : Option (Except (SaveError L) (List Char)) :=
  (checkJsonFaithful h payload).map fun
    | .error r => .error (.refused r)
    | .ok () => (encode C h ∅ payload).mapError .dumps

end dumps

/-! ## Reading back -/

/-- What is read is the object: a dictionary with its keys and values in order, a list or a tuple as a list. -/
inductive Reads {L : Type} (h : Heap L) : Obj L → Json.Doc F64 → Prop
  | none : Reads h (.scalar .none) .null
  | bool (b : Bool) : Reads h (.scalar (.bool b)) (.bool b)
  | int (z : ℤ) : Reads h (.scalar (.int z)) (.int z)
  | float (x : F64) : Reads h (.scalar (.float x)) (.float x)
  | str (s : PyStr) : Reads h (.scalar (.str s)) (.str s)
  | dict {l : L} {d : PyDict L} {members : List (PyStr × Json.Doc F64)} (hl : h l = .dict d)
    (hkeys : d.items.map Prod.fst = members.map fun m => Key.str m.1)
    (hvalues : List.Forall₂ (Reads h) (d.items.map Prod.snd) (members.map Prod.snd)) : Reads h (.ref l) (.obj members)
  | list {l : L} {items : List (Obj L)} {docs : List (Json.Doc F64)} (hl : h l = .list items)
    (hitems : List.Forall₂ (Reads h) items docs) : Reads h (.ref l) (.arr docs)
  | tuple {l : L} {items : List (Obj L)} {docs : List (Json.Doc F64)} (hl : h l = .tuple items)
    (hitems : List.Forall₂ (Reads h) items docs) : Reads h (.ref l) (.arr docs)

/-- No reachable container is in itself. -/
def Acyclic {L : Type} (h : Heap L) (payload : Obj L) : Prop :=
  ∀ l, Reachable h payload (.ref l) → ¬TransGen (Child h) (.ref l) (.ref l)

/-- JSON has the scalar, and writes and reads it exactly. -/
def Scalar.Exact (C : Json.Floats F64) : Scalar → Prop
  | .none => True
  | .bool _ => True
  | .int _ => True
  | .float x => C.Exact x
  | .str s => rejoin s = s
  | .other _ => False

/-- A string without high surrogates is read exactly. -/
theorem rejoin_of_chars {s : PyStr} (hs : ∀ c ∈ s, isHigh c.val = false) : rejoin s = s := by
  refine rejoin_of_apart (List.pairwise_of_forall_mem_list fun a ha b _ hab => ?_).isChain
  cases (hs a ha).symm.trans hab.1

/-- JSON has the reachable scalars and keys, and writes and reads them exactly. -/
structure Encodable {L : Type} (C : Json.Floats F64) (h : Heap L) (payload : Obj L) : Prop where
  scalar : ∀ s, Reachable h payload (.scalar s) → s.Exact C
  key : ∀ l d v s, Reachable h payload (.ref l) → h l = .dict d → (Key.str s, v) ∈ d.items → rejoin s = s

section roundtrip

variable {L : Type} {h : Heap L} {C : Json.Floats F64}

theorem child_ref {l : L} {c : Cell L} (hl : h l = c) {v : Obj L} : Child h (.ref l) v ↔ v ∈ c.children := by
  rw [Child, Obj.children, hl]

theorem Acyclic.child {o o' : Obj L} (ho : Acyclic h o) (hchild : Child h o o') : Acyclic h o' :=
  fun l hl => ho l (ReflTransGen.head hchild hl)

theorem Encodable.child {o o' : Obj L} (ho : Encodable C h o) (hchild : Child h o o') : Encodable C h o' where
  scalar s hs := ho.scalar s (ReflTransGen.head hchild hs)
  key l d v s hl := ho.key l d v s (ReflTransGen.head hchild hl)

theorem exists_forall₂ {α β : Type} {R : α → β → Prop} {xs : List α} (hxs : ∀ x ∈ xs, ∃ y, R x y) :
    ∃ ys, List.Forall₂ R xs ys := by
  induction xs with
  | nil => exact ⟨[], .nil⟩
  | cons x xs ih =>
    obtain ⟨y, hy⟩ := hxs x List.mem_cons_self
    obtain ⟨ys, hys⟩ := ih fun x' hx' => hxs x' (List.mem_cons_of_mem x hx')
    exact ⟨y :: ys, .cons hy hys⟩

theorem forall₂_right {α β : Type} {R : α → β → Prop} {P : β → Prop} (hR : ∀ x y, R x y → P y) {xs : List α}
    {ys : List β} (hxs : List.Forall₂ R xs ys) : ∀ y ∈ ys, P y := by
  intro y hy
  obtain ⟨x, -, hxy⟩ := Slice.exists_of_forall₂_right hxs hy
  exact hR x y hxy

/-- Encoding a list encodes its items. -/
theorem mapM_ok {α β γ ε : Type} {f : α → Except ε γ} {g : β → γ} {xs : List α} {ys : List β}
    (hxs : List.Forall₂ (fun x y => f x = .ok (g y)) xs ys) : xs.mapM f = .ok (ys.map g) := by
  induction hxs with
  | nil => rfl
  | cons hxy _ ih =>
    rw [List.mapM_cons, hxy, ih]
    rfl

theorem encodeScalar_ok {s : Scalar} (hgood : ¬Bad h (.scalar s)) (henc : Encodable C h (.scalar s)) :
    ∃ doc, encodeScalar C s = .ok (Json.render C doc) ∧ Reads h (.scalar s) doc ∧ doc.Exact C := by
  cases s with
  | none => exact ⟨.null, rfl, .none, .null⟩
  | bool b => cases b <;> exact ⟨_, rfl, .bool _, .bool _⟩
  | int z => exact ⟨.int z, rfl, .int z, .int z⟩
  | float x =>
    have hx : x.isFinite = true := by
      by_contra hx
      exact hgood (.float (Bool.eq_false_of_not_eq_true hx))
    refine ⟨.float x, ?_, .float x, .float (henc.scalar _ .refl)⟩
    rw [encodeScalar, encodeFloat, if_pos hx]
    rfl
  | str s => exact ⟨.str s, rfl, .str s, .str (henc.scalar _ .refl)⟩
  | other o => exact (henc.scalar _ .refl).elim

/-- A dictionary whose values are encoded, outside itself. -/
theorem dict_ok {l : L} {d : PyDict L} (hl : h l = .dict d) {Inside : Prop} [Decidable Inside] (hinside : ¬Inside)
    {f : Obj L → Except DumpError (List Char)}
    (hgood : ¬Bad h (.ref l)) (henc : Encodable C h (.ref l))
    (hf : ∀ v, Child h (.ref l) v → ∃ doc, f v = .ok (Json.render C doc) ∧ Reads h v doc ∧ doc.Exact C) :
    ∃ doc, ((if d.items = [] then .ok ['{', '}']
      else if Inside then .error .circular
      else do
        let members ← d.items.mapM fun p => do
          let key ← encodeKey C p.1
          let value ← f p.2
          pure (key ++ ':' :: ' ' :: value)
        pure ('{' :: Json.joinComma members ++ ['}']) : Except DumpError (List Char))) = .ok (Json.render C doc) ∧
      Reads h (.ref l) doc ∧ doc.Exact C := by
  let R (p : Key × Obj L) (m : PyStr × Json.Doc F64) : Prop :=
    p.1 = .str m.1 ∧ f p.2 = .ok (Json.render C m.2) ∧ Reads h p.2 m.2 ∧ m.2.Exact C ∧ rejoin m.1 = m.1
  have hitem : ∀ p ∈ d.items, ∃ m, R p m := by
    rintro ⟨k, v⟩ hp
    have hv : Child h (.ref l) v := (child_ref hl).mpr (List.mem_map_of_mem hp)
    obtain ⟨doc, htext, hreads, hexact⟩ := hf v hv
    cases hk : k.str? with
    | none => exact absurd (.key hl hp hk) hgood
    | some s =>
      obtain rfl := Key.str?_eq_some hk
      exact ⟨(s, doc), rfl, htext, hreads, hexact, henc.key l d v s .refl hl hp⟩
  obtain ⟨members, hmembers⟩ := exists_forall₂ hitem
  have hkeys : d.items.map Prod.fst = members.map fun m => Key.str m.1 := by
    rw [← List.forall₂_eq_eq_eq, List.forall₂_map_left_iff, List.forall₂_map_right_iff]
    exact hmembers.imp fun p m hpm => hpm.1
  have hnodup : (members.map Prod.fst).Nodup := by
    have hstr : d.items.filterMap (fun p => p.1.str?) = members.map Prod.fst := by
      calc d.items.filterMap (fun p => p.1.str?) = (d.items.map Prod.fst).filterMap Key.str? := by
            rw [List.filterMap_map]; rfl
        _ = members.filterMap (fun m => some m.1) := by rw [hkeys, List.filterMap_map]; rfl
        _ = members.map Prod.fst := congrFun List.filterMap_eq_map members
    rw [← hstr]
    exact d.nodup
  have htext : (d.items.mapM fun p => do
      let key ← encodeKey C p.1
      let value ← f p.2
      pure (key ++ ':' :: ' ' :: value)) = .ok (Json.renderMembers C members) := by
    rw [Json.renderMembers_eq]
    refine mapM_ok (hmembers.imp ?_)
    rintro ⟨k, v⟩ m ⟨hk, htext, -⟩
    dsimp only at hk htext
    rw [hk, htext]
    rfl
  refine ⟨.obj members, ?_, .dict hl hkeys ?_, .obj hnodup ?_ ?_⟩
  · rw [Json.render]
    by_cases hempty : d.items = []
    · rw [if_pos hempty]
      rw [hempty] at htext
      rw [← Except.ok.inj htext]
      rfl
    · rw [if_neg hempty, if_neg hinside, htext]
      rfl
  · rw [List.forall₂_map_left_iff, List.forall₂_map_right_iff]
    exact hmembers.imp fun p m hpm => hpm.2.2.1
  · exact forall₂_right (fun p m hpm => hpm.2.2.2.2) hmembers
  · exact forall₂_right (fun p m hpm => hpm.2.2.2.1) hmembers

/-- A list or a tuple whose items are encoded, outside itself. -/
theorem array_ok {items : List (Obj L)} {Inside : Prop} [Decidable Inside] (hinside : ¬Inside)
    {f : Obj L → Except DumpError (List Char)}
    (hf : ∀ v ∈ items, ∃ doc, f v = .ok (Json.render C doc) ∧ Reads h v doc ∧ doc.Exact C) :
    ∃ docs : List (Json.Doc F64), ((if items = [] then .ok ['[', ']']
      else if Inside then .error .circular
      else do
        let items ← items.mapM f
        pure ('[' :: Json.joinComma items ++ [']']) : Except DumpError (List Char))) = .ok (Json.render C (.arr docs)) ∧
      List.Forall₂ (Reads h) items docs ∧ (Json.Doc.arr docs).Exact C := by
  obtain ⟨docs, hdocs⟩ := exists_forall₂ hf
  refine ⟨docs, ?_, hdocs.imp fun v doc hv => hv.2.1, .arr (forall₂_right (fun v doc hv => hv.2.2) hdocs)⟩
  have htext : items.mapM f = .ok (docs.map (Json.render C)) := mapM_ok (hdocs.imp fun v doc hv => hv.1)
  rw [Json.render, Json.renderItems_eq]
  by_cases hempty : items = []
  · rw [if_pos hempty]
    rw [hempty] at htext
    rw [← Except.ok.inj htext]
    rfl
  · rw [if_neg hempty, if_neg hinside, htext]
    rfl

variable [DecidableEq L] [Fintype L]

/-- A payload without a cycle is encoded, in containers that are all around it. -/
theorem encode_ok {markers : Finset L} {o : Obj L} (hmarkers : ∀ l ∈ markers, TransGen (Child h) (.ref l) o)
    (hgood : ∀ o', Reachable h o o' → ¬Bad h o') (hacyclic : Acyclic h o) (henc : Encodable C h o) :
    ∃ doc, encode C h markers o = .ok (Json.render C doc) ∧ Reads h o doc ∧ doc.Exact C := by
  induction hn : markersᶜ.card using Nat.strong_induction_on generalizing markers o with
  | _ n ih =>
    subst hn
    cases o with
    | scalar s =>
      rw [encode]
      exact encodeScalar_ok (hgood _ .refl) henc
    | ref l =>
      have hl : l ∉ markers := fun hl => hacyclic l .refl (hmarkers l hl)
      have hcard : (insert l markers)ᶜ.card < markersᶜ.card := by
        rw [Finset.compl_insert]
        exact Finset.card_erase_lt_of_mem (Finset.mem_compl.mpr hl)
      have hchild : ∀ v, Child h (.ref l) v → ∃ doc, encode C h (insert l markers) v = .ok (Json.render C doc) ∧
          Reads h v doc ∧ doc.Exact C := by
        intro v hv
        refine ih _ hcard ?_ (fun o' ho' => hgood o' (.head hv ho')) (hacyclic.child hv) (henc.child hv) rfl
        intro l' hl'
        rcases Finset.mem_insert.mp hl' with rfl | hl'
        · exact .single hv
        · exact (hmarkers l' hl').tail hv
      cases hcell : h l with
      | dict d =>
        rw [encode, hcell]
        exact dict_ok hcell hl (hgood _ .refl) henc hchild
      | list items =>
        obtain ⟨docs, htext, hreads, hexact⟩ := array_ok hl fun v hv => hchild v ((child_ref hcell).mpr hv)
        refine ⟨.arr docs, ?_, .list hcell hreads, hexact⟩
        rw [encode, hcell]
        exact htext
      | tuple items =>
        obtain ⟨docs, htext, hreads, hexact⟩ := array_ok hl fun v hv => hchild v ((child_ref hcell).mpr hv)
        refine ⟨.arr docs, ?_, .tuple hcell hreads, hexact⟩
        rw [encode, hcell]
        exact htext

/-- What is written of an accepted payload. -/
theorem payloadStr_ok {payload : Obj L} (haccepted : checkJsonFaithful h payload = some (.ok ()))
    (hacyclic : Acyclic h payload) (henc : Encodable C h payload) :
    ∃ text doc, payloadStr C h payload = some (.ok text) ∧ Json.parse C text = some doc ∧ Reads h payload doc := by
  have hgood : ∀ o, Reachable h payload o → ¬Bad h o := by
    intro o ho hbad
    obtain ⟨e, he⟩ := (walk_iff haccepted).mpr ⟨o, ho, hbad⟩
    cases he
  have hmarkers : ∀ l ∈ (∅ : Finset L), TransGen (Child h) (.ref l) payload :=
    fun l hl => absurd hl (Finset.notMem_empty l)
  obtain ⟨doc, htext, hreads, hexact⟩ := encode_ok hmarkers hgood hacyclic henc
  refine ⟨Json.render C doc, doc, ?_, Json.parse_render hexact, hreads⟩
  rw [payloadStr, haccepted, Option.map_some, htext]
  rfl

/-- The walk ends on every heap, and raises exactly when a dictionary with a key that is no string or a float that is
not finite is reachable. An accepted payload without a cycle is written, and read back as it was. -/
theorem json_faithful (C : Json.Floats F64) (h : Heap L) (payload : Obj L) :
    (∃ r, checkJsonFaithful h payload = some r ∧
      (∀ fuel, 1 + edges h ≤ fuel → walk h fuel [.root payload] ∅ = some r) ∧
      ((∃ e, r = .error e) ↔ ∃ o, Reachable h payload o ∧ Bad h o)) ∧
    (checkJsonFaithful h payload = some (.ok ()) → Acyclic h payload → Encodable C h payload →
      ∃ text doc, payloadStr C h payload = some (.ok text) ∧ Json.parse C text = some doc ∧ Reads h payload doc) := by
  refine ⟨?_, payloadStr_ok⟩
  obtain ⟨r, hr⟩ := walk_some h payload
  exact ⟨r, hr, fun fuel hfuel => walk_mono hr hfuel, walk_iff hr⟩

end roundtrip

/-! ## A shared tuple -/

/-- Containers that hold only lower ones are in no cycle. -/
theorem Acyclic.of_rank {L : Type} {h : Heap L} (rank : L → ℕ)
    (hrank : ∀ l l', Child h (.ref l) (.ref l') → rank l' < rank l) (payload : Obj L) : Acyclic h payload := by
  have hlower (l : L) (o : Obj L) (ho : TransGen (Child h) (.ref l) o) : ∀ l', o = .ref l' → rank l' < rank l := by
    induction ho with
    | single hchild =>
      rintro l' rfl
      exact hrank l l' hchild
    | @tail o o' _ hchild ih =>
      rintro l' rfl
      cases o with
      | scalar s => exact absurd hchild List.not_mem_nil
      | ref k => exact (hrank k l' hchild).trans (ih k rfl)
  exact fun l _ hl => lt_irrefl _ (hlower l _ hl l rfl)

/-- `1.5` -/
private def threeHalves : F64 := ⟨0x3FF8000000000000⟩

/-- The text of `1.5`. -/
private def codec : Json.Floats F64 where
  repr _ := ['1', '.', '5']
  parse _ := threeHalves
  nan := ⟨0x7FF8000000000000⟩
  inf := ⟨0x7FF0000000000000⟩
  negInf := ⟨0xFFF0000000000000⟩

private def letter (k : Fin 26) : CodePoint := Fin.castLE (by decide) (Fin.natAdd 0x61 k)

/-- `{"a": t, "b": t}` where `t` is `(1.5, "a")`. -/
private def shared : Heap (Fin 2)
  | 0 => .dict ⟨[(.str [letter 0], .ref 1), (.str [letter 1], .ref 1)], by decide⟩
  | 1 => .tuple [.scalar (.float threeHalves), .scalar (.str [letter 0])]

theorem json_faithful_shared :
    ∃ text doc, payloadStr codec shared (.ref 0) = some (.ok text) ∧ Json.parse codec text = some doc ∧
      Reads shared (.ref 0) doc := by
  have hchildren (o : Obj (Fin 2)) : ∀ v, Child shared o v →
      v = .ref 1 ∧ o = .ref 0 ∨ v = .scalar (.float threeHalves) ∨ v = .scalar (.str [letter 0]) := by
    intro v hv
    match o with
    | .scalar s => exact absurd hv List.not_mem_nil
    | .ref 0 =>
      have hv : v ∈ [Obj.ref 1, Obj.ref 1] := hv
      rw [List.mem_cons, List.mem_singleton, or_self] at hv
      exact Or.inl ⟨hv, rfl⟩
    | .ref 1 =>
      have hv : v ∈ [Obj.scalar (.float threeHalves), Obj.scalar (.str [letter 0])] := hv
      rw [List.mem_cons, List.mem_singleton] at hv
      exact Or.inr hv
  have hletter (c : CodePoint) (hc : isHigh c.val = false) : rejoin [c] = [c] :=
    rejoin_of_chars fun c' hc' => by rw [List.mem_singleton.mp hc', hc]
  refine (json_faithful codec shared (.ref 0)).2 rfl (.of_rank (fun l => 1 - l.val) ?_ _) ⟨?_, ?_⟩
  · intro l l' hchild
    rcases hchildren _ _ hchild with ⟨hl', hl⟩ | hv | hv
    · cases hl
      cases hl'
      decide
    · cases hv
    · cases hv
  · intro s hs
    rcases ReflTransGen.cases_tail hs with hroot | ⟨o, -, hchild⟩
    · cases hroot
    · rcases hchildren _ _ hchild with ⟨hs, -⟩ | hs | hs
      · cases hs
      · cases hs
        exact ⟨rfl, rfl⟩
      · cases hs
        exact hletter _ rfl
  · intro l d v s _ hl hitem
    match l with
    | 0 =>
      cases hl
      rcases List.mem_cons.mp hitem with hitem | hitem
      · cases hitem
        exact hletter _ rfl
      · cases List.mem_singleton.mp hitem
        exact hletter _ rfl
    | 1 => cases hl

end Turbovec.Python.JsonFaithful
