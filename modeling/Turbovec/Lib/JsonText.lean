import Mathlib.Data.List.Chain
import Mathlib.Data.List.TakeWhile

/-!
# The words of JSON

Strings are written in ASCII: a code point past the printable ones is one or two `\u` escapes, and two escapes that are
a surrogate pair are read as one code point. Numbers are integers unless a fraction or an exponent follows. Each is read
back from the front of a text, with what comes after it.
-/

namespace JsonText

/-! ## Strings -/

/-- A code point; the surrogates are code points too. -/
abbrev CodePoint := Fin 0x110000

def isHigh (u : ℕ) : Bool := decide (0xD800 ≤ u ∧ u < 0xDC00)

def isLow (u : ℕ) : Bool := decide (0xDC00 ≤ u ∧ u < 0xE000)

/-- A code point in units of sixteen bits. -/
def units (c : CodePoint) : List ℕ :=
  if c.val < 0x10000 then [c.val]
  else [0xD800 + (c.val - 0x10000) / 0x400, 0xDC00 + (c.val - 0x10000) % 0x400]

/-- Units read as code points: a high surrogate and a low one after it are one. -/
def joinUnits : List ℕ → List CodePoint
  | [] => []
  | [u] => [Fin.ofNat 0x110000 u]
  | u :: v :: us =>
    if isHigh u && isLow v then
      Fin.ofNat 0x110000 (0x10000 + (u - 0xD800) * 0x400 + (v - 0xDC00)) :: joinUnits us
    else Fin.ofNat 0x110000 u :: joinUnits (v :: us)

/-- What a string reads back as. -/
def rejoin (s : List CodePoint) : List CodePoint := joinUnits (s.flatMap units)

def hex4 (n : ℕ) : List Char :=
  [Nat.digitChar (n / 4096 % 16), Nat.digitChar (n / 256 % 16), Nat.digitChar (n / 16 % 16), Nat.digitChar (n % 16)]

/-- A unit inside a string. -/
def escapeUnit (u : ℕ) : List Char :=
  if u = 0x22 then ['\\', '"']
  else if u = 0x5C then ['\\', '\\']
  else if u = 0x0A then ['\\', 'n']
  else if u = 0x0D then ['\\', 'r']
  else if u = 0x09 then ['\\', 't']
  else if u = 0x0C then ['\\', 'f']
  else if u = 0x08 then ['\\', 'b']
  else if 0x20 ≤ u ∧ u ≤ 0x7E then [Char.ofNat u]
  else '\\' :: 'u' :: hex4 u

/-- A string between quotes. -/
def quote (s : List CodePoint) : List Char := '"' :: (s.flatMap units).flatMap escapeUnit ++ ['"']

def hexVal (c : Char) : Option ℕ :=
  if 48 ≤ c.toNat ∧ c.toNat ≤ 57 then some (c.toNat - 48)
  else if 97 ≤ c.toNat ∧ c.toNat ≤ 102 then some (c.toNat - 87)
  else if 65 ≤ c.toNat ∧ c.toNat ≤ 70 then some (c.toNat - 55)
  else none

def hexVal4 (a b c d : Char) : Option ℕ := do
  return ((← hexVal a) * 4096 + (← hexVal b) * 256 + (← hexVal c) * 16 + (← hexVal d))

def simpleEscape (c : Char) : Option ℕ :=
  if c = '"' then some 0x22
  else if c = '\\' then some 0x5C
  else if c = '/' then some 0x2F
  else if c = 'b' then some 0x08
  else if c = 'f' then some 0x0C
  else if c = 'n' then some 0x0A
  else if c = 'r' then some 0x0D
  else if c = 't' then some 0x09
  else none

/-- The units of a string up to its closing quote, and what follows. A control character is refused. -/
def scanUnits : List Char → Option (List ℕ × List Char)
  | [] => none
  | '"' :: rest => some ([], rest)
  | '\\' :: 'u' :: a :: b :: c :: d :: rest =>
    (hexVal4 a b c d).bind fun u => (scanUnits rest).map fun p => (u :: p.1, p.2)
  | '\\' :: e :: rest => (simpleEscape e).bind fun u => (scanUnits rest).map fun p => (u :: p.1, p.2)
  | c :: rest => if c = '\\' ∨ c.toNat < 0x20 then none else (scanUnits rest).map fun p => (c.toNat :: p.1, p.2)

/-- A string after its opening quote. -/
def scanString (text : List Char) : Option (List CodePoint × List Char) :=
  (scanUnits text).map fun p => (joinUnits p.1, p.2)

theorem hexVal_digitChar : ∀ d < 16, hexVal (Nat.digitChar d) = some d := by decide

theorem hexVal4_hex4 {u : ℕ} (hu : u < 0x10000) :
    hexVal4 (Nat.digitChar (u / 4096 % 16)) (Nat.digitChar (u / 256 % 16)) (Nat.digitChar (u / 16 % 16))
      (Nat.digitChar (u % 16)) = some u := by
  have hdigit (n : ℕ) : hexVal (Nat.digitChar (n % 16)) = some (n % 16) :=
    hexVal_digitChar _ (Nat.mod_lt _ (by decide))
  rw [hexVal4, hdigit, hdigit, hdigit, hdigit]
  show some (u / 4096 % 16 * 4096 + u / 256 % 16 * 256 + u / 16 % 16 * 16 + u % 16) = some u
  congr 1
  omega

theorem printable : ∀ u < 127, (0x20 ≤ u ∧ u ≠ 0x22 ∧ u ≠ 0x5C) →
    Char.ofNat u ≠ '"' ∧ Char.ofNat u ≠ '\\' ∧ (Char.ofNat u).toNat = u := by decide

theorem scanUnits_plain {c : Char} (hquote : c ≠ '"') (hslash : c ≠ '\\') (hctrl : ¬c.toNat < 0x20) (rest : List Char) :
    scanUnits (c :: rest) = (scanUnits rest).map fun p => (c.toNat :: p.1, p.2) := by
  rw [scanUnits]
  · exact if_neg (not_or.mpr ⟨hslash, hctrl⟩)
  · exact hquote
  · exact fun _ _ _ _ _ hc _ => hslash hc
  · exact fun _ _ hc _ => hslash hc

/-- A unit is read back. -/
theorem scanUnits_escapeUnit {u : ℕ} (hu : u < 0x10000) (rest : List Char) :
    scanUnits (escapeUnit u ++ rest) = (scanUnits rest).map fun p => (u :: p.1, p.2) := by
  unfold escapeUnit
  split
  next h => subst h; rfl
  split
  next h => subst h; rfl
  split
  next h => subst h; rfl
  split
  next h => subst h; rfl
  split
  next h => subst h; rfl
  split
  next h => subst h; rfl
  split
  next h => subst h; rfl
  split
  next hquote hslash _ _ _ _ _ hprint =>
    -- printable, and neither a quote nor a backslash
    obtain ⟨hq, hs, hval⟩ := printable u (by omega) ⟨hprint.1, hquote, hslash⟩
    rw [List.singleton_append, scanUnits_plain hq hs (by omega), hval]
  next =>
    show ((hexVal4 _ _ _ _).bind fun u => (scanUnits rest).map fun p => (u :: p.1, p.2)) = _
    rw [hexVal4_hex4 hu]
    rfl

theorem units_lt (c : CodePoint) : ∀ u ∈ units c, u < 0x10000 := by
  have hc := c.isLt
  unfold units
  split
  next h =>
    intro u hu
    rw [List.mem_singleton.mp hu]
    exact h
  next h =>
    intro u hu
    rcases List.mem_cons.mp hu with rfl | hu
    · omega
    · rw [List.mem_singleton.mp hu]
      omega

theorem scanUnits_flatMap {us : List ℕ} (hus : ∀ u ∈ us, u < 0x10000) (rest : List Char) :
    scanUnits (us.flatMap escapeUnit ++ '"' :: rest) = some (us, rest) := by
  induction us with
  | nil => rfl
  | cons u us ih =>
    rw [List.flatMap_cons, List.append_assoc, scanUnits_escapeUnit (hus u List.mem_cons_self),
      ih fun v hv => hus v (List.mem_cons_of_mem u hv)]
    rfl

/-- A quoted string is read up to its closing quote. -/
theorem scanString_quote (s : List CodePoint) (rest : List Char) :
    scanString ((s.flatMap units).flatMap escapeUnit ++ '"' :: rest) = some (rejoin s, rest) := by
  have hunits : ∀ u ∈ s.flatMap units, u < 0x10000 := by
    intro u hu
    obtain ⟨c, -, hu⟩ := List.mem_flatMap.mp hu
    exact units_lt c u hu
  rw [scanString, scanUnits_flatMap hunits]
  rfl

theorem joinUnits_pair {u v : ℕ} (hu : isHigh u = true) (hv : isLow v = true) (us : List ℕ) :
    joinUnits (u :: v :: us) = Fin.ofNat 0x110000 (0x10000 + (u - 0xD800) * 0x400 + (v - 0xDC00)) :: joinUnits us := by
  rw [joinUnits, hu, hv]
  rfl

theorem joinUnits_single {u v : ℕ} (h : ¬(isHigh u = true ∧ isLow v = true)) (us : List ℕ) :
    joinUnits (u :: v :: us) = Fin.ofNat 0x110000 u :: joinUnits (v :: us) := by
  rw [joinUnits, if_neg (by rw [Bool.and_eq_true]; exact h)]

/-- A string in which no high surrogate stands before a low one reads back as itself. -/
theorem rejoin_of_apart {s : List CodePoint} (h : s.IsChain fun a b => ¬(isHigh a.val = true ∧ isLow b.val = true)) :
    rejoin s = s := by
  unfold rejoin
  induction s with
  | nil => rfl
  | cons c s ih =>
    have hrest := ih h.tail
    have hc := c.isLt
    rw [List.flatMap_cons]
    by_cases hbmp : c.val < 0x10000
    · have hself : Fin.ofNat 0x110000 c.val = c := Fin.ext (Nat.mod_eq_of_lt hc)
      have hunits : units c = [c.val] := if_pos hbmp
      rw [hunits, List.singleton_append]
      cases s with
      | nil => exact congrArg (fun d => [d]) hself
      | cons d s =>
        -- the next unit is the next code point or a high surrogate
        have happart : ∀ v us, (d :: s).flatMap units = v :: us → ¬(isHigh c.val = true ∧ isLow v = true) := by
          intro v us hus
          rw [List.flatMap_cons, units] at hus
          split at hus
          next => rw [← (List.cons.inj hus).1]; exact h.rel
          next hd =>
            rintro ⟨-, hlow⟩
            rw [← (List.cons.inj hus).1, isLow, decide_eq_true_eq] at hlow
            have := d.isLt
            omega
        cases hus : (d :: s).flatMap units with
        | nil =>
          rw [List.flatMap_cons, units] at hus
          split at hus
          · cases hus
          · cases hus
        | cons v us => rw [joinUnits_single (happart v us hus), hself, ← hus, hrest]
    · have hunits : units c = [0xD800 + (c.val - 0x10000) / 0x400, 0xDC00 + (c.val - 0x10000) % 0x400] := if_neg hbmp
      have hhigh : isHigh (0xD800 + (c.val - 0x10000) / 0x400) = true := decide_eq_true (by omega)
      have hlow : isLow (0xDC00 + (c.val - 0x10000) % 0x400) = true := decide_eq_true (by omega)
      have hval : Fin.ofNat 0x110000 (0x10000 + (0xD800 + (c.val - 0x10000) / 0x400 - 0xD800) * 0x400 +
          (0xDC00 + (c.val - 0x10000) % 0x400 - 0xDC00)) = c := by
        apply Fin.ext
        show (0x10000 + (0xD800 + (c.val - 0x10000) / 0x400 - 0xD800) * 0x400 +
          (0xDC00 + (c.val - 0x10000) % 0x400 - 0xDC00)) % 0x110000 = c.val
        omega
      rw [hunits, List.cons_append, List.singleton_append, joinUnits_pair hhigh hlow, hrest, hval]

/-! ## Numbers -/

inductive Number
  | int (z : ℤ)
  | float (text : List Char)
deriving DecidableEq, Repr

/-- `0|[1-9][0-9]*` -/
def scanNat : List Char → Option (List Char × List Char)
  | [] => none
  | c :: rest =>
    if c = '0' then some (['0'], rest)
    else if c.isDigit then some (c :: rest.takeWhile Char.isDigit, rest.dropWhile Char.isDigit)
    else none

/-- `-?(0|[1-9][0-9]*)` -/
def scanInt : List Char → Option (List Char × List Char)
  | [] => none
  | c :: rest => if c = '-' then (scanNat rest).map fun p => ('-' :: p.1, p.2) else scanNat (c :: rest)

/-- `(\.[0-9]+)?` -/
def scanFrac : List Char → List Char × List Char
  | [] => ([], [])
  | c :: rest =>
    if c = '.' ∧ rest.takeWhile Char.isDigit ≠ [] then
      ('.' :: rest.takeWhile Char.isDigit, rest.dropWhile Char.isDigit)
    else ([], c :: rest)

/-- `[-+]?` -/
def scanSign : List Char → List Char × List Char
  | [] => ([], [])
  | c :: rest => if c = '-' ∨ c = '+' then ([c], rest) else ([], c :: rest)

/-- `([eE][-+]?[0-9]+)?` -/
def scanExp : List Char → List Char × List Char
  | [] => ([], [])
  | c :: rest =>
    let (sign, digits) := scanSign rest
    if (c = 'e' ∨ c = 'E') ∧ digits.takeWhile Char.isDigit ≠ [] then
      (c :: (sign ++ digits.takeWhile Char.isDigit), digits.dropWhile Char.isDigit)
    else ([], c :: rest)

/-- The value of an integer literal. -/
def intOf : List Char → ℤ
  | [] => 0
  | c :: rest => if c = '-' then -(Nat.ofDigitChars 10 rest 0 : ℤ) else (Nat.ofDigitChars 10 (c :: rest) 0 : ℤ)

/-- A number at the front of a text, and what follows. -/
def scanNumber (text : List Char) : Option (Number × List Char) := do
  let (i, rest) ← scanInt text
  let (f, rest) := scanFrac rest
  let (e, rest) := scanExp rest
  return (if f = [] ∧ e = [] then .int (intOf i) else .float (i ++ f ++ e), rest)

def formatInt (z : ℤ) : List Char :=
  if z < 0 then '-' :: Nat.toDigits 10 z.natAbs else Nat.toDigits 10 z.natAbs

/-- A text that does not go on with a number. -/
def NumEnd (rest : List Char) : Prop :=
  ∀ c ∈ rest.head?, c.isDigit = false ∧ c ≠ '.' ∧ c ≠ 'e' ∧ c ≠ 'E'

/-- A literal of a float. -/
def IsFloatLiteral (text : List Char) : Prop := scanNumber text = some (.float text, [])

/-! ## Reading numbers back -/

theorem span_append {p : Char → Bool} {rest : List Char} (h : ∀ c ∈ rest.head?, p c = false) (l : List Char) :
    (l ++ rest).takeWhile p = l.takeWhile p ∧ (l ++ rest).dropWhile p = l.dropWhile p ++ rest := by
  induction l with
  | nil =>
    cases rest with
    | nil => exact ⟨rfl, rfl⟩
    | cons c rest =>
      have hc := h c rfl
      rw [List.nil_append, List.takeWhile_cons, List.dropWhile_cons, hc]
      exact ⟨rfl, rfl⟩
  | cons a l ih =>
    rw [List.cons_append, List.takeWhile_cons, List.dropWhile_cons, List.takeWhile_cons, List.dropWhile_cons]
    cases p a with
    | false => exact ⟨rfl, rfl⟩
    | true => exact ⟨congrArg (a :: ·) ih.1, ih.2⟩

section append

variable {rest : List Char}

theorem not_digit (hend : NumEnd rest) : ∀ c ∈ rest.head?, c.isDigit = false := fun c hc => (hend c hc).1

theorem scanNat_append (hend : NumEnd rest) {l d l' : List Char} (h : scanNat l = some (d, l')) :
    scanNat (l ++ rest) = some (d, l' ++ rest) := by
  cases l with
  | nil => cases h
  | cons c l =>
    obtain ⟨htake, hdrop⟩ := span_append (not_digit hend) l
    rw [scanNat] at h
    rw [List.cons_append, scanNat, htake, hdrop]
    split at h
    next hzero =>
      cases h
      rw [if_pos hzero]
    next hzero =>
      rw [if_neg hzero]
      split at h
      next hdigit =>
        cases h
        rw [if_pos hdigit]
      next => cases h

theorem scanInt_append (hend : NumEnd rest) {l i l' : List Char} (h : scanInt l = some (i, l')) :
    scanInt (l ++ rest) = some (i, l' ++ rest) := by
  cases l with
  | nil => cases h
  | cons c l =>
    rw [scanInt] at h
    rw [List.cons_append, scanInt]
    split at h
    next hminus =>
      obtain ⟨⟨d, l''⟩, hd, hp⟩ := Option.map_eq_some_iff.mp h
      cases hp
      rw [if_pos hminus, scanNat_append hend hd]
      rfl
    next hminus =>
      rw [if_neg hminus]
      exact scanNat_append hend h

theorem scanFrac_append (hend : NumEnd rest) (l : List Char) : scanFrac (l ++ rest) = ((scanFrac l).1, (scanFrac l).2 ++ rest) := by
  cases l with
  | nil =>
    cases rest with
    | nil => rfl
    | cons c rest => exact if_neg fun h => (hend c rfl).2.1 h.1
  | cons c l =>
    obtain ⟨htake, hdrop⟩ := span_append (not_digit hend) l
    rw [List.cons_append, scanFrac, scanFrac, htake, hdrop]
    split
    · rfl
    · rfl

theorem scanExp_append (hend : NumEnd rest) {l e : List Char} (h : scanExp l = (e, [])) : scanExp (l ++ rest) = (e, rest) := by
  cases l with
  | nil =>
    cases h
    cases rest with
    | nil => rfl
    | cons c rest =>
      rw [List.nil_append, scanExp]
      exact if_neg fun h => h.1.elim (hend c rfl).2.2.1 (hend c rfl).2.2.2
  | cons c l =>
    rw [scanExp] at h
    rw [List.cons_append, scanExp]
    have hsign : l ≠ [] → scanSign (l ++ rest) = ((scanSign l).1, (scanSign l).2 ++ rest) := by
      intro hl
      obtain ⟨s, l, rfl⟩ := List.exists_cons_of_ne_nil hl
      rw [List.cons_append, scanSign, scanSign]
      split
      · rfl
      · rfl
    dsimp only at h ⊢
    split at h
    next hexp =>
      have hl : l ≠ [] := by
        rintro rfl
        exact hexp.2 rfl
      obtain ⟨htake, hdrop⟩ := span_append (not_digit hend) (scanSign l).2
      rw [hsign hl]
      dsimp only
      rw [htake, hdrop, if_pos hexp]
      rw [Prod.mk.injEq] at h
      rw [← h.1, h.2]
      rfl
    next => cases h

end append

theorem scanNumber_eq {text i f e l l' l'' : List Char} (hi : scanInt text = some (i, l)) (hf : scanFrac l = (f, l'))
    (he : scanExp l' = (e, l'')) : scanNumber text =
      some (if f = [] ∧ e = [] then .int (intOf i) else .float (i ++ f ++ e), l'') := by
  simp only [scanNumber, hi, hf, he, Option.bind_eq_bind, Option.bind_some]
  rfl

/-- A literal of a float is read up to its end. -/
theorem scanNumber_float {text rest : List Char} (hend : NumEnd rest) (h : IsFloatLiteral text) :
    scanNumber (text ++ rest) = some (.float text, rest) := by
  cases hi : scanInt text with
  | none =>
    unfold IsFloatLiteral scanNumber at h
    rw [hi] at h
    cases h
  | some p =>
    have hwhole := scanNumber_eq hi (show scanFrac p.2 = ((scanFrac p.2).1, (scanFrac p.2).2) from rfl)
      (show scanExp (scanFrac p.2).2 = ((scanExp (scanFrac p.2).2).1, (scanExp (scanFrac p.2).2).2) from rfl)
    rw [IsFloatLiteral, hwhole, Option.some.injEq, Prod.mk.injEq] at h
    have hlonger := scanNumber_eq (scanInt_append hend hi) (scanFrac_append hend p.2)
      (scanExp_append hend (Prod.ext rfl h.2))
    rw [hlonger, h.1]

/-! ## Writing integers -/

/-- A positive number does not begin with a zero. -/
theorem toDigits_head {n : ℕ} (hn : 0 < n) : ∃ c ds, Nat.toDigits 10 n = c :: ds ∧ c ≠ '0' := by
  induction n using Nat.strongRecOn with
  | ind n ih =>
    by_cases hlt : n < 10
    · rw [Nat.toDigits_of_lt_base hlt]
      have hchar : ∀ d < 10, 0 < d → Nat.digitChar d ≠ '0' := by decide
      exact ⟨_, [], rfl, hchar n hlt hn⟩
    · obtain ⟨c, ds, hds, hc⟩ := ih (n / 10) (Nat.div_lt_self hn (by decide)) (Nat.div_pos (not_lt.mp hlt) (by decide))
      rw [Nat.toDigits_of_base_le (by decide) (not_lt.mp hlt), hds]
      exact ⟨c, ds ++ [Nat.digitChar (n % 10)], rfl, hc⟩

theorem scanNat_toDigits (n : ℕ) : scanNat (Nat.toDigits 10 n) = some (Nat.toDigits 10 n, []) := by
  have hall : ∀ c ∈ Nat.toDigits 10 n, c.isDigit = true := fun c hc =>
    Nat.isDigit_of_mem_toDigits (by decide) (by decide) hc
  cases n with
  | zero => rfl
  | succ n =>
    obtain ⟨c, ds, hds, hc⟩ := toDigits_head n.succ_pos
    rw [hds] at hall ⊢
    have hrest : ∀ d ∈ ds, d.isDigit = true := fun d hd => hall d (List.mem_cons_of_mem c hd)
    rw [scanNat, if_neg hc, if_pos (hall c List.mem_cons_self), List.takeWhile_eq_self_iff.mpr hrest,
      List.dropWhile_eq_nil_iff.mpr hrest]

theorem head_ne_minus {n : ℕ} {c : Char} {ds : List Char} (h : Nat.toDigits 10 n = c :: ds) : c ≠ '-' := by
  rintro rfl
  have hdigit : '-'.isDigit = true :=
    Nat.isDigit_of_mem_toDigits (by decide) (by decide) (h ▸ List.mem_cons_self : '-' ∈ Nat.toDigits 10 n)
  exact absurd hdigit (by decide)

/-- An integer is read back. -/
theorem scanNumber_formatInt {rest : List Char} (hend : NumEnd rest) (z : ℤ) :
    scanNumber (formatInt z ++ rest) = some (.int z, rest) := by
  obtain ⟨c, ds, hds⟩ := List.exists_cons_of_ne_nil (Nat.toDigits_ne_nil (n := z.natAbs) (b := 10))
  have hvalue : Nat.ofDigitChars 10 (Nat.toDigits 10 z.natAbs) 0 = z.natAbs :=
    Nat.ofDigitChars_toDigits (by decide) (by decide)
  have hscan : scanInt (formatInt z) = some (formatInt z, []) := by
    unfold formatInt
    split
    · rw [scanInt, if_pos rfl, scanNat_toDigits]
      rfl
    · rw [hds, scanInt, if_neg (head_ne_minus hds), ← hds, scanNat_toDigits]
  have hint : intOf (formatInt z) = z := by
    unfold formatInt
    split
    · rw [intOf, if_pos rfl, hvalue]
      omega
    · rw [hds, intOf, if_neg (head_ne_minus hds), ← hds, hvalue]
      omega
  have hfrac := scanFrac_append hend []
  have hexp : scanExp ([] ++ rest) = ([], rest) := scanExp_append hend rfl
  rw [scanNumber_eq (scanInt_append hend hscan) hfrac hexp, hint]
  rfl

end JsonText
