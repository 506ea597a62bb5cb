import Turbovec.Lib.Slice
import Mathlib.Tactic.NormNum

/-!
# Little-endian integers

`leBytes k n` is the `k`-byte little-endian form of `n`, its high bits dropped as an `as` cast
drops them, and `ofLe` reads it back. `readLe?` reads one inside a byte list.
-/

namespace LittleEndian

open Slice

/-- The low `k` bytes of `n`, least significant first. -/
def leBytes : ℕ → ℕ → List UInt8
  | 0, _ => []
  | k + 1, n => UInt8.ofNat n :: leBytes k (n / 256)

/-- The integer a little-endian byte list stands for. -/
def ofLe : List UInt8 → ℕ
  | [] => 0
  | b :: bs => b.toNat + 256 * ofLe bs

/-- The `k`-byte integer at `off`. -/
def readLe? (l : List UInt8) (off k : ℕ) : Option ℕ :=
  (slice? l off k).map ofLe

@[simp] theorem length_leBytes (k n : ℕ) : (leBytes k n).length = k := by
  induction k generalizing n with
  | zero => rfl
  | succ k ih => simp [leBytes, ih]

theorem ofLe_leBytes (k n : ℕ) : ofLe (leBytes k n) = n % 256 ^ k := by
  induction k generalizing n with
  | zero => simp [leBytes, ofLe, Nat.mod_one]
  | succ k ih =>
    have h8 : (UInt8.ofNat n).toNat = n % 256 := UInt8.toNat_ofNat'
    rw [leBytes, ofLe, ih, h8, pow_succ', Nat.mod_mul]

theorem ofLe_leBytes_of_lt {k n : ℕ} (h : n < 256 ^ k) : ofLe (leBytes k n) = n := by
  rw [ofLe_leBytes, Nat.mod_eq_of_lt h]

theorem ofLe_lt (bs : List UInt8) : ofLe bs < 256 ^ bs.length := by
  induction bs with
  | nil => simp [ofLe]
  | cons b bs ih =>
    have hb : b.toNat < 256 := b.toNat_lt
    simp only [ofLe, List.length_cons, pow_succ]
    omega

theorem leBytes_ofLe (bs : List UInt8) : leBytes bs.length (ofLe bs) = bs := by
  induction bs with
  | nil => rfl
  | cons b bs ih =>
    have hb : b.toNat < 256 := b.toNat_lt
    simp only [List.length_cons, leBytes, ofLe]
    rw [Nat.add_mul_div_left _ _ (by norm_num), Nat.div_eq_of_lt hb, Nat.zero_add, ih]
    congr 1
    apply UInt8.toNat_inj.1
    have h8 : (UInt8.ofNat (b.toNat + 256 * ofLe bs)).toNat = (b.toNat + 256 * ofLe bs) % 256 :=
      UInt8.toNat_ofNat'
    omega

theorem leBytes_mod (k n : ℕ) : leBytes k (n % 256 ^ k) = leBytes k n := by
  have h := leBytes_ofLe (leBytes k n)
  rwa [length_leBytes, ofLe_leBytes] at h

theorem leBytes_inj {k m n : ℕ} (hm : m < 256 ^ k) (hn : n < 256 ^ k)
    (h : leBytes k m = leBytes k n) : m = n := by
  rw [← ofLe_leBytes_of_lt hm, h, ofLe_leBytes_of_lt hn]

theorem ofLe_replicate_zero (k : ℕ) : ofLe (List.replicate k 0) = 0 := by
  induction k with
  | zero => rfl
  | succ k ih => simp [List.replicate_succ, ofLe, ih]

theorem readLe?_of_holds {l : List UInt8} {off k n : ℕ} (h : Holds l off (leBytes k n)) :
    readLe? l off k = some (n % 256 ^ k) := by
  rw [readLe?, h.slice? (length_leBytes k n), Option.map_some, ofLe_leBytes]

theorem readLe?_of_holds_of_lt {l : List UInt8} {off k n : ℕ} (h : Holds l off (leBytes k n))
    (hn : n < 256 ^ k) : readLe? l off k = some n := by
  rw [readLe?_of_holds h, Nat.mod_eq_of_lt hn]

theorem readLe?_lt {l : List UInt8} {off k n : ℕ} (h : readLe? l off k = some n) :
    n < 256 ^ k := by
  obtain ⟨bs, hbs, rfl⟩ := Option.map_eq_some_iff.1 h
  rw [← length_of_slice? hbs]
  exact ofLe_lt bs

theorem readLe?_le_length {l : List UInt8} {off k n : ℕ} (h : readLe? l off k = some n) :
    off + k ≤ l.length := by
  obtain ⟨bs, hbs, rfl⟩ := Option.map_eq_some_iff.1 h
  exact (slice?_eq_some.1 hbs).1

/-- What was read is what is there. -/
theorem holds_of_readLe? {l : List UInt8} {off k n : ℕ} (h : readLe? l off k = some n) :
    Holds l off (leBytes k n) := by
  obtain ⟨bs, hbs, rfl⟩ := Option.map_eq_some_iff.1 h
  have := leBytes_ofLe bs
  rw [length_of_slice? hbs] at this
  rw [this]
  exact holds_of_slice? hbs

theorem readLe?_take {l : List UInt8} {n off k : ℕ} (h : off + k ≤ n) :
    readLe? (l.take n) off k = readLe? l off k := by
  rw [readLe?, readLe?, slice?_take h]

theorem readLe?_replicate_zero {m k : ℕ} (h : k ≤ m) :
    readLe? (List.replicate m 0) 0 k = some 0 := by
  rw [readLe?, slice?_of_le (by simpa using h), List.drop_zero, List.take_replicate,
    Nat.min_eq_left h, Option.map_some, ofLe_replicate_zero]

end LittleEndian
