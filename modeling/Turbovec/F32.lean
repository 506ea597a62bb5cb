import Turbovec.Lib.LittleEndian

/-!
# Single-precision values

A stored `f32` is its 32 bits. The comparisons the loader makes are the IEEE ones: `NaN` compares with
nothing, and the two zeros are equal.
-/

namespace Turbovec

open LittleEndian Slice

structure F32 where
  bits : UInt32
deriving DecidableEq, Repr

namespace F32

instance : Zero F32 := ⟨⟨0⟩⟩

instance : One F32 := ⟨⟨0x3F800000⟩⟩

instance : Inhabited F32 := ⟨0⟩

/-- Exponent and mantissa. -/
def magnitude (x : F32) : ℕ := x.bits.toNat % 2 ^ 31

def isNaN (x : F32) : Bool := decide (0x7F800000 < x.magnitude)

def NEG_INFINITY : F32 := ⟨0xFF800000⟩

def isFinite (x : F32) : Bool := decide (x.magnitude < 0x7F800000)

def abs (x : F32) : F32 := ⟨UInt32.ofNat x.magnitude⟩

/-- The value's place in the order of the non-`NaN` values. -/
def key (x : F32) : ℤ := if x.bits.toNat < 2 ^ 31 then x.magnitude else -x.magnitude

/-- `==` -/
def eq (x y : F32) : Bool := !x.isNaN && !y.isNaN && decide (x.key = y.key)

/-- `<=` -/
def le (x y : F32) : Bool := !x.isNaN && !y.isNaN && decide (x.key ≤ y.key)

/-- `<` -/
def lt (x y : F32) : Bool := !x.isNaN && !y.isNaN && decide (x.key < y.key)

instance : LT F32 := ⟨fun x y => x.lt y = true⟩

instance : DecidableLT F32 := fun x y => inferInstanceAs (Decidable (x.lt y = true))

def toLeBytes (x : F32) : List UInt8 := leBytes 4 x.bits.toNat

def fromLeBytes (bs : List UInt8) : F32 := ⟨UInt32.ofNat (ofLe bs)⟩

/-- A value above a bound is above whatever is at most that bound. -/
theorem lt_of_le_of_lt {x y z : F32} (h : x.le y = true) (hz : y < z) : x < z := by
  change y.lt z = true at hz
  show x.lt z = true
  simp only [le, lt, Bool.and_eq_true, decide_eq_true_eq] at *
  obtain ⟨⟨hx, _⟩, hxy⟩ := h
  obtain ⟨⟨_, hz⟩, hyz⟩ := hz
  exact ⟨⟨hx, hz⟩, Int.lt_of_le_of_lt hxy hyz⟩

theorem eq_self {x : F32} (h : x.isNaN = false) : x.eq x = true := by
  simp [eq, h]

@[simp] theorem length_toLeBytes (x : F32) : x.toLeBytes.length = 4 :=
  length_leBytes _ _

@[simp] theorem fromLeBytes_toLeBytes (x : F32) : fromLeBytes x.toLeBytes = x := by
  have h : x.bits.toNat < 256 ^ 4 := x.bits.toNat_lt
  simp [fromLeBytes, toLeBytes, ofLe_leBytes_of_lt h]

theorem toLeBytes_fromLeBytes {bs : List UInt8} (h : bs.length = 4) :
    (fromLeBytes bs).toLeBytes = bs := by
  have hlt : ofLe bs < 2 ^ 32 := by
    have := ofLe_lt bs
    rwa [h] at this
  rw [fromLeBytes, toLeBytes, UInt32.toNat_ofNat', Nat.mod_eq_of_lt hlt]
  have := leBytes_ofLe bs
  rwa [h] at this

theorem toLeBytes_inj {x y : F32} (h : x.toLeBytes = y.toLeBytes) : x = y := by
  rw [← fromLeBytes_toLeBytes x, h, fromLeBytes_toLeBytes]

end F32

/-- `io::MAX_VECTOR_SCALE`, `1e22`. -/
def MAX_VECTOR_SCALE : F32 := ⟨0x64078678⟩

/-- A per-vector scale a loader takes: finite, in `0.0 ..= 1e22`. -/
def validScale (v : F32) : Bool := v.isFinite && (F32.le 0 v && F32.le v MAX_VECTOR_SCALE)

theorem validScale_zero : validScale 0 = true := by decide

/-- The calibration bounds at each dimension, `f32` constants the crate computes. -/
structure CalibrationBounds where
  maxTqplusShift : ℕ → F32
  minTqplusScale : ℕ → F32

section variable (B : CalibrationBounds)

def badShift (dim : ℕ) (v : F32) : Bool := !v.isFinite || F32.lt (B.maxTqplusShift dim) v.abs

def badScale (dim : ℕ) (v : F32) : Bool := !v.isFinite || F32.lt v (B.minTqplusScale dim)

/-- The calibration rule every loader shares. The source's messages go on to print the value and the
bound. -/
def validateCalibration (tqplusShift tqplusScale : List F32) : Except String Unit :=
  match tqplusShift.findIdx? (badShift B tqplusShift.length) with
  | some i => .error s!"invalid TQ+ shift at coord {i}"
  | none =>
    match tqplusScale.findIdx? (badScale B tqplusScale.length) with
    | some i => .error s!"invalid TQ+ scale at coord {i}"
    | none => .ok ()

theorem validateCalibration_eq_ok {tqplusShift tqplusScale : List F32} :
    validateCalibration B tqplusShift tqplusScale = .ok () ↔
      (∀ v ∈ tqplusShift, badShift B tqplusShift.length v = false) ∧
        ∀ v ∈ tqplusScale, badScale B tqplusScale.length v = false := by
  rw [← List.findIdx?_eq_none_iff, ← List.findIdx?_eq_none_iff, validateCalibration]
  constructor
  · intro h
    split at h
    · cases h
    · split at h
      · cases h
      · exact ⟨‹_›, ‹_›⟩
  · rintro ⟨h1, h2⟩
    simp only [h1, h2]

end

end Turbovec
