import Turbovec.Index.State

/-!
# The id map

External ids over slots. `slotToId` names each row; the table from ids to slots is built on first use
after a load, and until then a sorted copy of the loaded ids and the ids added since stand in for it.
-/

namespace Turbovec

open IoV7

/-- The id-to-slot table. -/
abbrev IdTable := UInt64 → Option ℕ

structure IdMapIndex where
  inner : TurboQuantIndex
  slotToId : List UInt64
  idToSlot : Option IdTable
  sortedIds : List UInt64
  deferredAdded : Finset UInt64

namespace IdMapIndex

/-- Two equal neighbours. -/
def repeats : List UInt64 → Bool
  | a :: b :: l => a == b || repeats (b :: l)
  | _ => false

def sortIds (ids : List UInt64) : List UInt64 := ids.mergeSort fun a b => decide (a ≤ b)

/-- The index of a loaded image, its id table checked for a repeat. -/
def fromV7Load (P : Pack.Platform) (T : Tables) (l : V7Load) (path : Option String) :
    Except String IdMapIndex :=
  let sorted := sortIds l.ids
  if repeats sorted then .error "duplicate ids in v7 file"
  else .ok ⟨TurboQuantIndex.fromV7 P T { l with ids := [] } path, l.ids, none, sorted, ∅⟩

/-- The index with no sync destination. -/
def unbound (x : IdMapIndex) : IdMapIndex := { x with inner := x.inner.unbound }

end IdMapIndex

end Turbovec
