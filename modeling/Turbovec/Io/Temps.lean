import Mathlib.Data.Nat.Digits.Lemmas
import Mathlib.Data.List.Infix

/-!
# Temporary names and their sweep

The sibling name a save stages under, and the sweep that removes the ones a killed writer left. A name is its
characters; the lengths the source measures are those of the UTF-8 bytes.
-/

namespace Turbovec
namespace Io

abbrev Name := List Char

/-- `len()` -/
def byteLen (s : Name) : ℕ := (s.map Char.utf8Size).sum

def isAsciiDigit (c : Char) : Bool := decide ('0' ≤ c ∧ c ≤ '9')

def isAsciiHexdigit (c : Char) : Bool :=
  isAsciiDigit c || decide ('a' ≤ c ∧ c ≤ 'f') || decide ('A' ≤ c ∧ c ≤ 'F')

/-- A directory entry: its name where that is UTF-8, whether it is a file, and its age in seconds when known. -/
structure Entry where
  name : Option Name
  isFile : Bool
  age : Option ℕ
deriving DecidableEq

/-- `{pid}.{seq}` or `{pid}.{seq}.{hex8}`. -/
def WellFormed (s : Name) : Prop :=
  ∃ pid seq : Name, pid ≠ [] ∧ seq ≠ [] ∧ pid.all isAsciiDigit = true ∧ seq.all isAsciiDigit = true ∧
    (s = pid ++ '.' :: seq ∨ ∃ rand : Name, s = pid ++ '.' :: (seq ++ '.' :: rand) ∧ byteLen rand = 8 ∧
      rand.all isAsciiHexdigit = true)

end Io
end Turbovec
