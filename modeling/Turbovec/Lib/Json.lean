import Turbovec.Lib.JsonText

/-!
# JSON documents

A document is written on one line and read back: members of an object are a dictionary in the order of their first
occurrence, a later value of a key replacing an earlier one. How a float is written and read is a parameter.
-/

namespace Json

open JsonText

/-- A document; an object is the list of its members. -/
inductive Doc (F : Type)
  | null
  | bool (b : Bool)
  | int (z : ℤ)
  | float (x : F)
  | str (s : List CodePoint)
  | arr (items : List (Doc F))
  | obj (members : List (List CodePoint × Doc F))

/-- How floats are written and read. -/
structure Floats (F : Type) where
  repr : F → List Char
  parse : List Char → F
  nan : F
  inf : F
  negInf : F

/-- The float is written as a literal of a float and read back exactly. -/
def Floats.Exact {F : Type} (C : Floats F) (x : F) : Prop := IsFloatLiteral (C.repr x) ∧ C.parse (C.repr x) = x

variable {F : Type}

/-! ## Writing -/

/-- Texts with `, ` between them. -/
def joinComma : List (List Char) → List Char
  | [] => []
  | t :: ts => t ++ ts.flatMap fun t => ',' :: ' ' :: t

def member (key : List CodePoint) (value : List Char) : List Char := quote key ++ ':' :: ' ' :: value

section write

variable (C : Floats F)

mutual

def render : Doc F → List Char
  | .null => ['n', 'u', 'l', 'l']
  | .bool true => ['t', 'r', 'u', 'e']
  | .bool false => ['f', 'a', 'l', 's', 'e']
  | .int z => formatInt z
  | .float x => C.repr x
  | .str s => quote s
  | .arr items => '[' :: joinComma (renderItems items) ++ [']']
  | .obj members => '{' :: joinComma (renderMembers members) ++ ['}']

def renderItems : List (Doc F) → List (List Char)
  | [] => []
  | t :: ts => render t :: renderItems ts

def renderMembers : List (List CodePoint × Doc F) → List (List Char)
  | [] => []
  | (k, t) :: ts => member k (render t) :: renderMembers ts

end

theorem renderItems_eq (items : List (Doc F)) : renderItems C items = items.map (render C) := by
  induction items with
  | nil => rfl
  | cons t items ih => rw [renderItems, ih, List.map_cons]

theorem renderMembers_eq (members : List (List CodePoint × Doc F)) :
    renderMembers C members = members.map fun p => member p.1 (render C p.2) := by
  induction members with
  | nil => rfl
  | cons p members ih => rw [renderMembers, ih, List.map_cons]

end write

/-! ## Reading -/

def isSpace (c : Char) : Bool := c == ' ' || c == '\t' || c == '\n' || c == '\r'

def skipSpace (text : List Char) : List Char := text.dropWhile isSpace

/-- A dictionary with a key set: in its place, or at the end. -/
def setKey {V : Type} (d : List (List CodePoint × V)) (k : List CodePoint) (v : V) : List (List CodePoint × V) :=
  if k ∈ d.map Prod.fst then d.map fun p => if p.1 = k then (k, v) else p else d ++ [(k, v)]

/-- The dictionary of a list of pairs. -/
def dictOf {V : Type} (pairs : List (List CodePoint × V)) : List (List CodePoint × V) :=
  pairs.foldl (fun d p => setKey d p.1 p.2) []

/-- A name at the front of a text. -/
def name? (word : List Char) (v : Doc F) (text : List Char) : Option (Doc F × List Char) :=
  if word.isPrefixOf text then some (v, text.drop word.length) else none

section read

variable (C : Floats F)

/-- The document a number is. -/
def ofNumber : Number → Doc F
  | .int z => .int z
  | .float literal => .float (C.parse literal)

/-- A name or a number. -/
def scalar (text : List Char) : Option (Doc F × List Char) :=
  name? ['n', 'u', 'l', 'l'] .null text <|> name? ['t', 'r', 'u', 'e'] (.bool true) text <|>
  name? ['f', 'a', 'l', 's', 'e'] (.bool false) text <|>
  ((scanNumber text).map fun p => (ofNumber C p.1, p.2)) <|>
  name? ['N', 'a', 'N'] (.float C.nan) text <|>
  name? ['I', 'n', 'f', 'i', 'n', 'i', 't', 'y'] (.float C.inf) text <|>
  name? ['-', 'I', 'n', 'f', 'i', 'n', 'i', 't', 'y'] (.float C.negInf) text

mutual

/-- A value at the front of a text, and what follows; none also when out of fuel. -/
def value : ℕ → List Char → Option (Doc F × List Char)
  | 0, _ => none
  | _ + 1, [] => none
  | fuel + 1, c :: rest =>
    if c = '"' then (scanString rest).map fun p => (.str p.1, p.2)
    else if c = '{' then
      if (skipSpace rest).head? = some '}' then some (.obj [], (skipSpace rest).tail)
      else (members fuel (skipSpace rest)).map fun p => (.obj (dictOf p.1), p.2)
    else if c = '[' then
      if (skipSpace rest).head? = some ']' then some (.arr [], (skipSpace rest).tail)
      else (items fuel (skipSpace rest)).map fun p => (.arr p.1, p.2)
    else scalar C (c :: rest)

/-- The items of an array up to its bracket. -/
def items : ℕ → List Char → Option (List (Doc F) × List Char)
  | 0, _ => none
  | fuel + 1, text => do
    let (v, rest) ← value fuel text
    match skipSpace rest with
    | ']' :: rest => some ([v], rest)
    | ',' :: rest => (items fuel (skipSpace rest)).map fun p => (v :: p.1, p.2)
    | _ => none

/-- The members of an object up to its brace. -/
def members : ℕ → List Char → Option (List (List CodePoint × Doc F) × List Char)
  | fuel + 1, '"' :: text => do
    let (k, rest) ← scanString text
    match skipSpace rest with
    | ':' :: rest => do
      let (v, rest) ← value fuel (skipSpace rest)
      match skipSpace rest with
      | '}' :: rest => some ([(k, v)], rest)
      | ',' :: rest => (members fuel (skipSpace rest)).map fun p => ((k, v) :: p.1, p.2)
      | _ => none
    | _ => none
  | _, _ => none

end

/-- The document a text is, whitespace around it. -/
def parse (text : List Char) : Option (Doc F) :=
  (value C (text.length + 1) (skipSpace text)).bind fun p => if skipSpace p.2 = [] then some p.1 else none

end read

/-! ## Round trip -/

/-- A document of values that are written exactly, each object with its keys once. -/
inductive Doc.Exact (C : Floats F) : Doc F → Prop
  | null : Exact C .null
  | bool (b : Bool) : Exact C (.bool b)
  | int (z : ℤ) : Exact C (.int z)
  | float {x : F} (h : C.Exact x) : Exact C (.float x)
  | str {s : List CodePoint} (h : rejoin s = s) : Exact C (.str s)
  | arr {items : List (Doc F)} (h : ∀ t ∈ items, Exact C t) : Exact C (.arr items)
  | obj {members : List (List CodePoint × Doc F)} (hnodup : (members.map Prod.fst).Nodup)
      (hkeys : ∀ p ∈ members, rejoin p.1 = p.1) (h : ∀ p ∈ members, Exact C p.2) : Exact C (.obj members)

section roundtrip

variable {C : Floats F}

/-- Setting keys one after the other, each once, lists them. -/
theorem dictOf_nodup {V : Type} {pairs : List (List CodePoint × V)} (h : (pairs.map Prod.fst).Nodup) :
    dictOf pairs = pairs := by
  have hfold (pairs d : List (List CodePoint × V)) (h : ((d ++ pairs).map Prod.fst).Nodup) :
      pairs.foldl (fun d p => setKey d p.1 p.2) d = d ++ pairs := by
    induction pairs generalizing d with
    | nil => rw [List.foldl_nil, List.append_nil]
    | cons p pairs ih =>
      have hnew : p.1 ∉ d.map Prod.fst := by
        rw [List.map_append, List.map_cons, List.nodup_append] at h
        exact fun hmem => h.2.2 p.1 hmem p.1 List.mem_cons_self rfl
      have happ : d ++ p :: pairs = (d ++ [p]) ++ pairs := by rw [List.append_assoc]; rfl
      rw [List.foldl_cons, setKey, if_neg hnew, happ]
      exact ih _ (happ ▸ h)
  exact hfold pairs [] h

/-! A number begins with a digit or a minus sign, and no name does. -/

theorem scanNat_head {c : Char} {l : List Char} {p : List Char × List Char} (h : scanNat (c :: l) = some p) :
    c.isDigit = true := by
  rw [scanNat] at h
  split at h
  next h0 => rw [h0]; rfl
  next =>
    split at h
    next hd => exact hd
    next => cases h

theorem scanInt_head {c : Char} {l : List Char} {p : List Char × List Char} (h : scanInt (c :: l) = some p) :
    c = '-' ∨ c.isDigit = true := by
  rw [scanInt] at h
  split at h
  next hm => exact Or.inl hm
  next => exact Or.inr (scanNat_head h)

theorem scanNumber_head {c : Char} {l : List Char} {p : Number × List Char} (h : scanNumber (c :: l) = some p) :
    c = '-' ∨ c.isDigit = true := by
  unfold scanNumber at h
  obtain ⟨q, hq, -⟩ := Option.bind_eq_some_iff.mp h
  exact scanInt_head hq

/-- What the first character of a number is not. -/
theorem number_char {c : Char} (h : c = '-' ∨ c.isDigit = true) {d : Char} (hd : d ≠ '-' ∧ d.isDigit = false) : c ≠ d := by
  rintro rfl
  rcases h with rfl | h
  · exact hd.1 rfl
  · rw [hd.2] at h
    cases h

theorem name?_of_ne {c d : Char} (h : c ≠ d) (word l : List Char) (v : Doc F) : name? (d :: word) v (c :: l) = none := by
  rw [name?, List.isPrefixOf, beq_false_of_ne h.symm]
  rfl

theorem value_number {c : Char} {l rest : List Char} {p : Number} (h : scanNumber (c :: l) = some (p, rest)) (fuel : ℕ) :
    value C (fuel + 1) (c :: l) = some (ofNumber C p, rest) := by
  have hc := scanNumber_head h
  rw [value, if_neg (number_char hc (by decide)), if_neg (number_char hc (by decide)),
    if_neg (number_char hc (by decide)), scalar, name?_of_ne (number_char hc (by decide)),
    name?_of_ne (number_char hc (by decide)), name?_of_ne (number_char hc (by decide)), h]
  rfl

/-- A document's text begins with a character that is no space and closes nothing. -/
theorem render_head {t : Doc F} (ht : t.Exact C) :
    ∃ c l, render C t = c :: l ∧ isSpace c = false ∧ c ≠ ']' ∧ c ≠ '}' := by
  have hnum {l : List Char} {p : Number × List Char} (h : scanNumber l = some p) :
      ∃ c l', l = c :: l' ∧ isSpace c = false ∧ c ≠ ']' ∧ c ≠ '}' := by
    cases l with
    | nil => cases h
    | cons c l =>
      have hc := scanNumber_head h
      refine ⟨c, l, rfl, ?_, number_char hc (by decide), number_char hc (by decide)⟩
      rw [isSpace, beq_false_of_ne (number_char hc (by decide)), beq_false_of_ne (number_char hc (by decide)),
        beq_false_of_ne (number_char hc (by decide)), beq_false_of_ne (number_char hc (by decide))]
      rfl
  cases ht with
  | null => exact ⟨'n', _, rfl, by decide⟩
  | bool b =>
    cases b with
    | true => exact ⟨'t', _, rfl, by decide⟩
    | false => exact ⟨'f', _, rfl, by decide⟩
  | int z =>
    have hend : NumEnd [] := nofun
    have h := scanNumber_formatInt hend z
    rw [List.append_nil] at h
    exact hnum h
  | float h => exact hnum h.1
  | str h => exact ⟨'"', _, rfl, by decide⟩
  | arr h => exact ⟨'[', _, rfl, by decide⟩
  | obj hnodup hkeys h => exact ⟨'{', _, rfl, by decide⟩

theorem skipSpace_of_head {c : Char} (h : isSpace c = false) (l : List Char) : skipSpace (c :: l) = c :: l := by
  rw [skipSpace, List.dropWhile_cons, h]
  rfl

theorem skipSpace_render {t : Doc F} (ht : t.Exact C) (l : List Char) :
    skipSpace (render C t ++ l) = render C t ++ l ∧ (render C t ++ l).head? ≠ some ']' := by
  obtain ⟨c, l', hr, hspace, hbracket, -⟩ := render_head ht
  rw [hr, List.cons_append]
  exact ⟨skipSpace_of_head hspace _, fun h => hbracket (Option.some.inj h)⟩

/-- What follows a value in a document: a comma or a bracket. -/
theorem numEnd_cons {c : Char} (h : c = ',' ∨ c = ']' ∨ c = '}') (l : List Char) : NumEnd (c :: l) := by
  rintro d hd
  cases hd
  rcases h with rfl | rfl | rfl
  · decide
  · decide
  · decide

/-- A value read at the front of its text with anything after it that is no part of a number. -/
def ReadsAt (C : Floats F) (fuel : ℕ) : Prop :=
  ∀ t rest, Doc.Exact C t → (render C t).length ≤ fuel → NumEnd rest →
    value C fuel (render C t ++ rest) = some (t, rest)

/-- The items of an array are read if each is. -/
theorem items_render {n : ℕ} (ih : ∀ m < n, ReadsAt C m) {ts : List (Doc F)} {t : Doc F} {fuel : ℕ} (hfuel : fuel ≤ n)
    (ht : t.Exact C) (hts : ∀ t ∈ ts, t.Exact C) (rest : List Char)
    (hlen : (joinComma ((t :: ts).map (render C))).length < fuel) :
    items C fuel (joinComma ((t :: ts).map (render C)) ++ ']' :: rest) = some (t :: ts, rest) := by
  induction ts generalizing t fuel with
  | nil =>
    obtain ⟨fuel, rfl⟩ : ∃ m, fuel = m + 1 := ⟨fuel - 1, by omega⟩
    have htext : joinComma ([t].map (render C)) = render C t := List.append_nil _
    rw [htext] at hlen ⊢
    have hv := ih fuel (by omega) t (']' :: rest) ht (by omega) (numEnd_cons (Or.inr (Or.inl rfl)) rest)
    rw [items, hv]
    rfl
  | cons u ts ihts =>
    obtain ⟨fuel, rfl⟩ : ∃ m, fuel = m + 1 := ⟨fuel - 1, by omega⟩
    have htext : joinComma ((t :: u :: ts).map (render C)) =
        render C t ++ (',' :: ' ' :: joinComma ((u :: ts).map (render C))) := rfl
    have hu := hts u List.mem_cons_self
    rw [htext, List.length_append, List.length_cons, List.length_cons] at hlen
    rw [htext, List.append_assoc]
    have hv := ih fuel (by omega) t (',' :: ' ' :: (joinComma ((u :: ts).map (render C)) ++ ']' :: rest)) ht (by omega)
      (numEnd_cons (Or.inl rfl) _)
    have hrest := ihts (show fuel ≤ n by omega) hu (fun v hv => hts v (List.mem_cons_of_mem u hv)) (by omega)
    have hskip : skipSpace (' ' :: (joinComma ((u :: ts).map (render C)) ++ ']' :: rest)) =
        joinComma ((u :: ts).map (render C)) ++ ']' :: rest := by
      have hcons : joinComma ((u :: ts).map (render C)) ++ ']' :: rest =
          render C u ++ ((ts.map (render C)).flatMap (fun t => ',' :: ' ' :: t) ++ ']' :: rest) :=
        List.append_assoc _ _ _
      rw [hcons]
      exact (skipSpace_render hu _).1
    rw [items]
    show (value C fuel (render C t ++ (',' :: ' ' :: (joinComma ((u :: ts).map (render C)) ++ ']' :: rest)))).bind _ = _
    rw [hv]
    show (items C fuel (skipSpace (' ' :: (joinComma ((u :: ts).map (render C)) ++ ']' :: rest)))).map _ = _
    rw [hskip, hrest]
    rfl

theorem quote_append (s : List CodePoint) (l : List Char) :
    quote s ++ l = '"' :: ((s.flatMap units).flatMap escapeUnit ++ '"' :: l) := by
  rw [quote, List.cons_append, List.cons_append, List.append_assoc]
  rfl

/-- The members of an object are read if each value is. -/
theorem members_render {n : ℕ} (ih : ∀ m < n, ReadsAt C m) {ps : List (List CodePoint × Doc F)}
    {p : List CodePoint × Doc F} {fuel : ℕ} (hfuel : fuel ≤ n) (hp : rejoin p.1 = p.1 ∧ p.2.Exact C)
    (hps : ∀ p ∈ ps, rejoin p.1 = p.1 ∧ p.2.Exact C) (rest : List Char)
    (hlen : (joinComma ((p :: ps).map fun p => member p.1 (render C p.2))).length < fuel) :
    members C fuel (joinComma ((p :: ps).map fun p => member p.1 (render C p.2)) ++ '}' :: rest) =
      some (p :: ps, rest) := by
  -- the key, the colon and the value, with `l` after them
  have hhead (p : List CodePoint × Doc F) (l : List Char) : member p.1 (render C p.2) ++ l =
      '"' :: ((p.1.flatMap units).flatMap escapeUnit ++ '"' :: (':' :: ' ' :: (render C p.2 ++ l))) := by
    rw [member, List.append_assoc, quote_append]
    rfl
  have hshort (p : List CodePoint × Doc F) : (render C p.2).length + 4 ≤ (member p.1 (render C p.2)).length := by
    rw [member, List.length_append, List.length_cons, List.length_cons, quote, List.length_append, List.length_cons,
      List.length_singleton]
    omega
  have hstep (p : List CodePoint × Doc F) (hp : rejoin p.1 = p.1 ∧ p.2.Exact C) (fuel : ℕ) (l : List Char) :
      members C (fuel + 1) (member p.1 (render C p.2) ++ l) = (value C fuel (render C p.2 ++ l)).bind fun q =>
        match skipSpace q.2 with
        | '}' :: rest => some ([(p.1, q.1)], rest)
        | ',' :: rest => (members C fuel (skipSpace rest)).map fun r => ((p.1, q.1) :: r.1, r.2)
        | _ => none := by
    rw [hhead, members, scanString_quote, hp.1]
    show (value C fuel (skipSpace (' ' :: (render C p.2 ++ l)))).bind _ = _
    have hskip : skipSpace (' ' :: (render C p.2 ++ l)) = render C p.2 ++ l := (skipSpace_render hp.2 l).1
    rw [hskip]
  induction ps generalizing p fuel with
  | nil =>
    obtain ⟨fuel, rfl⟩ : ∃ m, fuel = m + 1 := ⟨fuel - 1, by omega⟩
    have htext : joinComma ([p].map fun p => member p.1 (render C p.2)) = member p.1 (render C p.2) := List.append_nil _
    rw [htext] at hlen ⊢
    have hs := hshort p
    have hv := ih fuel (by omega) p.2 ('}' :: rest) hp.2 (by omega) (numEnd_cons (Or.inr (Or.inr rfl)) rest)
    rw [hstep p hp, hv]
    rfl
  | cons u ps ihps =>
    obtain ⟨fuel, rfl⟩ : ∃ m, fuel = m + 1 := ⟨fuel - 1, by omega⟩
    have htext : joinComma ((p :: u :: ps).map fun p => member p.1 (render C p.2)) = member p.1 (render C p.2) ++
        (',' :: ' ' :: joinComma ((u :: ps).map fun p => member p.1 (render C p.2))) := rfl
    have hu := hps u List.mem_cons_self
    rw [htext, List.length_append, List.length_cons, List.length_cons] at hlen
    rw [htext, List.append_assoc]
    have hs := hshort p
    have hv := ih fuel (by omega) p.2
      (',' :: ' ' :: (joinComma ((u :: ps).map fun p => member p.1 (render C p.2)) ++ '}' :: rest)) hp.2 (by omega)
      (numEnd_cons (Or.inl rfl) _)
    have hrest := ihps (show fuel ≤ n by omega) hu (fun v hv => hps v (List.mem_cons_of_mem u hv)) (by omega)
    have hskip : skipSpace (' ' :: (joinComma ((u :: ps).map fun p => member p.1 (render C p.2)) ++ '}' :: rest)) =
        joinComma ((u :: ps).map fun p => member p.1 (render C p.2)) ++ '}' :: rest := by
      have hcons : joinComma ((u :: ps).map fun p => member p.1 (render C p.2)) ++ '}' :: rest =
          member u.1 (render C u.2) ++
            ((ps.map fun p => member p.1 (render C p.2)).flatMap (fun t => ',' :: ' ' :: t) ++ '}' :: rest) :=
        List.append_assoc _ _ _
      rw [hcons, hhead]
      rfl
    have hafter : (',' :: ' ' :: joinComma ((u :: ps).map fun p => member p.1 (render C p.2))) ++ '}' :: rest =
        ',' :: ' ' :: (joinComma ((u :: ps).map fun p => member p.1 (render C p.2)) ++ '}' :: rest) := rfl
    rw [hafter, hstep p hp, hv]
    show (members C fuel (skipSpace (' ' :: (joinComma ((u :: ps).map fun p => member p.1 (render C p.2)) ++
      '}' :: rest)))).map _ = _
    rw [hskip, hrest]
    rfl

/-- Every exact document is read back from the front of its text. -/
theorem value_render (fuel : ℕ) : ReadsAt C fuel := by
  induction fuel using Nat.strongRecOn with
  | ind fuel ih =>
    intro t rest ht hlen hend
    obtain ⟨c, l, hcons, -⟩ := render_head ht
    obtain ⟨fuel, rfl⟩ : ∃ m, fuel = m + 1 := by
      rw [hcons, List.length_cons] at hlen
      exact ⟨fuel - 1, by omega⟩
    have hnumber {text : List Char} {p : Number} (h : scanNumber (text ++ rest) = some (p, rest)) :
        value C (fuel + 1) (text ++ rest) = some (ofNumber C p, rest) := by
      cases htext : text ++ rest with
      | nil =>
        rw [htext] at h
        cases h
      | cons d l =>
        rw [htext] at h
        exact value_number h fuel
    cases ht with
    | null => rfl
    | bool b =>
      cases b with
      | true => rfl
      | false => rfl
    | int z => exact hnumber (scanNumber_formatInt hend z)
    | float h => exact (hnumber (scanNumber_float hend h.1)).trans (by rw [ofNumber, h.2])
    | @str s h =>
      rw [render, quote_append, value, if_pos rfl, scanString_quote, h]
      rfl
    | @arr ts h =>
      cases ts with
      | nil => rfl
      | cons t ts =>
        have htext : render C (.arr (t :: ts)) = '[' :: (joinComma ((t :: ts).map (render C)) ++ [']']) := by
          rw [render, renderItems_eq]
          rfl
        rw [htext, List.length_cons, List.length_append, List.length_singleton] at hlen
        have hread := items_render ih (Nat.le_succ fuel) (h t List.mem_cons_self)
          (fun u hu => h u (List.mem_cons_of_mem t hu)) rest (by omega)
        have hbody : joinComma ((t :: ts).map (render C)) ++ [']'] ++ rest =
            joinComma ((t :: ts).map (render C)) ++ ']' :: rest := List.append_assoc _ _ _
        have hcons : joinComma ((t :: ts).map (render C)) ++ ']' :: rest =
            render C t ++ ((ts.map (render C)).flatMap (fun t => ',' :: ' ' :: t) ++ ']' :: rest) :=
          List.append_assoc _ _ _
        obtain ⟨hskip, hbracket⟩ := skipSpace_render (h t List.mem_cons_self)
          ((ts.map (render C)).flatMap (fun t => ',' :: ' ' :: t) ++ ']' :: rest)
        rw [← hcons] at hskip hbracket
        rw [htext, List.cons_append, hbody, value, if_neg (by decide), if_neg (by decide), if_pos rfl, hskip,
          if_neg hbracket, hread]
        rfl
    | @obj ps hnodup hkeys h =>
      cases ps with
      | nil => rfl
      | cons p ps =>
        have htext : render C (.obj (p :: ps)) =
            '{' :: (joinComma ((p :: ps).map fun p => member p.1 (render C p.2)) ++ ['}']) := by
          rw [render, renderMembers_eq]
          rfl
        rw [htext, List.length_cons, List.length_append, List.length_singleton] at hlen
        have hread := members_render ih (Nat.le_succ fuel)
          ⟨hkeys p List.mem_cons_self, h p List.mem_cons_self⟩
          (fun u hu => ⟨hkeys u (List.mem_cons_of_mem p hu), h u (List.mem_cons_of_mem p hu)⟩) rest (by omega)
        have hbody : joinComma ((p :: ps).map fun p => member p.1 (render C p.2)) ++ ['}'] ++ rest =
            joinComma ((p :: ps).map fun p => member p.1 (render C p.2)) ++ '}' :: rest := List.append_assoc _ _ _
        obtain ⟨l, hl⟩ : ∃ l, joinComma ((p :: ps).map fun p => member p.1 (render C p.2)) ++ '}' :: rest = '"' :: l :=
          ⟨_, rfl⟩
        have hskip : skipSpace (joinComma ((p :: ps).map fun p => member p.1 (render C p.2)) ++ '}' :: rest) =
            joinComma ((p :: ps).map fun p => member p.1 (render C p.2)) ++ '}' :: rest := by
          rw [hl]
          rfl
        have hbrace : (joinComma ((p :: ps).map fun p => member p.1 (render C p.2)) ++ '}' :: rest).head? ≠ some '}' := by
          rw [hl]
          exact fun h => absurd (Option.some.inj h) (by decide)
        rw [htext, List.cons_append, hbody, value, if_neg (by decide), if_pos rfl, hskip, if_neg hbrace, hread]
        show some (Doc.obj (dictOf (p :: ps)), rest) = _
        rw [dictOf_nodup hnodup]

/-- The text of an exact document is that document. -/
theorem parse_render {t : Doc F} (ht : t.Exact C) : parse C (render C t) = some t := by
  obtain ⟨c, l, hcons, hspace, -⟩ := render_head ht
  have hread := value_render (C := C) ((render C t).length + 1) t [] ht (Nat.le_succ _) nofun
  have hskip : skipSpace (render C t) = render C t := by
    rw [hcons]
    exact skipSpace_of_head hspace l
  rw [List.append_nil] at hread
  rw [parse, hskip, hread]
  rfl

end roundtrip

end Json
