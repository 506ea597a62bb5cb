import Turbovec.Lib.LittleEndian

/-!
# The checksum

`crc32` is CRC-32C; from 4096 bytes on it is the CRC of the digests of three length-derived thirds.
`DeltaDigest` computes the same value over bytes that are never contiguous, given their total length.
-/

namespace Turbovec.IoV7

open LittleEndian

/-- One bit of the reflected polynomial division. -/
def crcStep (c : UInt32) : UInt32 :=
  (c >>> 1) ^^^ (0x82F63B78 &&& (0 - (c &&& 1)))

/-- Entry `i` of the byte table. -/
def crcTable (i : UInt8) : UInt32 := Nat.iterate crcStep 8 i.toUInt32

/-- Fold `data` into a running register, without the final complement. -/
def crc32cUpdate (crc : UInt32) (data : List UInt8) : UInt32 :=
  data.foldl (fun crc b => (crc >>> 8) ^^^ crcTable (crc.toUInt8 ^^^ b)) crc

def crc32One (data : List UInt8) : UInt32 := ~~~(crc32cUpdate 0xFFFFFFFF data)

def u32Bytes (x : UInt32) : List UInt8 := leBytes 4 x.toNat

/-- The CRC over the digests of three parts, from their raw registers. -/
def crc32Three (a b c : UInt32) : UInt32 :=
  crc32One (u32Bytes (~~~a) ++ u32Bytes (~~~b) ++ u32Bytes (~~~c))

def crc32 (data : List UInt8) : UInt32 :=
  if data.length < 4096 then crc32One data
  else
    let third := data.length / 3
    crc32Three (crc32cUpdate 0xFFFFFFFF (data.take third))
      (crc32cUpdate 0xFFFFFFFF ((data.drop third).take third))
      (crc32cUpdate 0xFFFFFFFF (data.drop (third * 2)))

theorem crc32cUpdate_append (crc : UInt32) (xs ys : List UInt8) :
    crc32cUpdate crc (xs ++ ys) = crc32cUpdate (crc32cUpdate crc xs) ys :=
  List.foldl_append

/-! ## The digest of pieces -/

structure DeltaDigest where
  /-- bytes pushed so far -/
  at_ : ℕ
  split : Option (ℕ × ℕ)
  parts : UInt32 × UInt32 × UInt32

namespace DeltaDigest

def new (total : ℕ) : DeltaDigest where
  at_ := 0
  split := if total ≥ 4096 then some (total / 3, total / 3 * 2) else none
  parts := (0xFFFFFFFF, 0xFFFFFFFF, 0xFFFFFFFF)

/-- Fold a run of bytes into the third it lands in. -/
def route (s1 s2 : ℕ) (d : DeltaDigest) (run : List UInt8) : DeltaDigest :=
  { d with
    at_ := d.at_ + run.length
    parts := if d.at_ < s1 then (crc32cUpdate d.parts.1 run, d.parts.2)
      else if d.at_ < s2 then (d.parts.1, crc32cUpdate d.parts.2.1 run, d.parts.2.2)
      else (d.parts.1, d.parts.2.1, crc32cUpdate d.parts.2.2 run) }

/-- Bytes of `data` that land in the current third. -/
def taken (s1 s2 : ℕ) (d : DeltaDigest) (data : List UInt8) : ℕ :=
  if d.at_ < s1 then min data.length (s1 - d.at_)
  else if d.at_ < s2 then min data.length (s2 - d.at_)
  else data.length

theorem taken_pos {s1 s2 : ℕ} (d : DeltaDigest) {data : List UInt8} (h : data ≠ []) :
    0 < taken s1 s2 d data := by
  have := List.length_pos_iff.2 h
  unfold taken
  split
  · omega
  · split <;> omega

/-- Route each run of `data` to its third. -/
def pushRuns (s1 s2 : ℕ) (d : DeltaDigest) (data : List UInt8) : DeltaDigest :=
  if _h : data = [] then d
  else pushRuns s1 s2 (route s1 s2 d (data.take (taken s1 s2 d data)))
    (data.drop (taken s1 s2 d data))
termination_by data.length
decreasing_by
  have := @taken_pos s1 s2 d data ‹_›
  have := List.length_pos_iff.2 ‹_›
  rw [List.length_drop]
  omega

def push (d : DeltaDigest) (data : List UInt8) : DeltaDigest :=
  match d.split with
  | none => { d with
      at_ := d.at_ + data.length
      parts := (crc32cUpdate d.parts.1 data, d.parts.2) }
  | some (s1, s2) => pushRuns s1 s2 d data

def finish (d : DeltaDigest) : UInt32 :=
  match d.split with
  | none => ~~~d.parts.1
  | some _ => crc32Three d.parts.1 d.parts.2.1 d.parts.2.2

/-- The registers after the bytes `xs`, split at `s1` and `s2`. -/
structure Pushed (s1 s2 : ℕ) (xs : List UInt8) (d : DeltaDigest) : Prop where
  at_eq : d.at_ = xs.length
  split_eq : d.split = some (s1, s2)
  parts_eq : d.parts = (crc32cUpdate 0xFFFFFFFF (xs.take s1),
    crc32cUpdate 0xFFFFFFFF ((xs.drop s1).take (s2 - s1)), crc32cUpdate 0xFFFFFFFF (xs.drop s2))

theorem pushed_route {s1 s2 : ℕ} (hs : s1 ≤ s2) {xs run : List UInt8} {d : DeltaDigest}
    (h : Pushed s1 s2 xs d) (h1 : d.at_ < s1 → d.at_ + run.length ≤ s1)
    (h2 : ¬ d.at_ < s1 → d.at_ < s2 → d.at_ + run.length ≤ s2) :
    Pushed s1 s2 (xs ++ run) (route s1 s2 d run) := by
  rw [h.at_eq] at h1 h2
  refine ⟨by simp [route, h.at_eq], h.split_eq, ?_⟩
  simp only [route, h.at_eq, h.parts_eq]
  have htake {l : List UInt8} {m : ℕ} (hl : l.length ≤ m) : l.take m = l := List.take_of_length_le hl
  have hdrop {l : List UInt8} {m : ℕ} (hl : l.length ≤ m) : l.drop m = [] :=
    List.drop_of_length_le hl
  have hlen : (xs ++ run).length = xs.length + run.length := List.length_append
  by_cases hlt1 : xs.length < s1
  · have := h1 hlt1
    rw [if_pos hlt1, htake hlt1.le, hdrop hlt1.le, hdrop (show xs.length ≤ s2 by omega),
      htake (show (xs ++ run).length ≤ s1 by omega), hdrop (show (xs ++ run).length ≤ s1 by omega),
      hdrop (show (xs ++ run).length ≤ s2 by omega), crc32cUpdate_append]
  · have hfront : (xs ++ run).take s1 = xs.take s1 := List.take_append_of_le_length (by omega)
    have hmid : (xs ++ run).drop s1 = xs.drop s1 ++ run := List.drop_append_of_le_length (by omega)
    by_cases hlt2 : xs.length < s2
    · have := h2 hlt1 hlt2
      have hshort : (xs.drop s1).length ≤ s2 - s1 := by rw [List.length_drop]; omega
      have hshort' : (xs.drop s1 ++ run).length ≤ s2 - s1 := by
        rw [List.length_append, List.length_drop]
        omega
      rw [if_neg hlt1, if_pos hlt2, hfront, hmid, htake hshort, htake hshort', hdrop hlt2.le,
        hdrop (show (xs ++ run).length ≤ s2 by omega), crc32cUpdate_append]
    · have hback : (xs ++ run).drop s2 = xs.drop s2 ++ run :=
        List.drop_append_of_le_length (by omega)
      have hfull : (xs.drop s1 ++ run).take (s2 - s1) = (xs.drop s1).take (s2 - s1) :=
        List.take_append_of_le_length (by rw [List.length_drop]; omega)
      rw [if_neg hlt1, if_neg hlt2, hfront, hmid, hfull, hback, crc32cUpdate_append]

theorem pushed_pushRuns {s1 s2 : ℕ} (hs : s1 ≤ s2) {xs data : List UInt8} {d : DeltaDigest}
    (h : Pushed s1 s2 xs d) : Pushed s1 s2 (xs ++ data) (pushRuns s1 s2 d data) := by
  induction d, data using pushRuns.induct s1 s2 generalizing xs with
  | case1 d => rwa [pushRuns, dif_pos rfl, List.append_nil]
  | case2 d data hne ih =>
    have htake : (data.take (taken s1 s2 d data)).length ≤ taken s1 s2 d data := by
      rw [List.length_take]
      exact Nat.min_le_left _ _
    have hroute : Pushed s1 s2 (xs ++ data.take (taken s1 s2 d data))
        (route s1 s2 d (data.take (taken s1 s2 d data))) := by
      refine pushed_route hs h (fun hlt => ?_) fun hlt1 hlt2 => ?_
      · have : taken s1 s2 d data ≤ s1 - d.at_ := by
          rw [taken, if_pos hlt]
          exact Nat.min_le_right _ _
        omega
      · have : taken s1 s2 d data ≤ s2 - d.at_ := by
          rw [taken, if_neg hlt1, if_pos hlt2]
          exact Nat.min_le_right _ _
        omega
    have := ih hroute
    rw [List.append_assoc, List.take_append_drop] at this
    rwa [pushRuns, dif_neg hne]

theorem pushed_push {s1 s2 : ℕ} (hs : s1 ≤ s2) {xs data : List UInt8} {d : DeltaDigest}
    (h : Pushed s1 s2 xs d) : Pushed s1 s2 (xs ++ data) (d.push data) := by
  rw [push, h.split_eq]
  exact pushed_pushRuns hs h

/-- Pushing pieces of the declared total length gives the checksum of their concatenation. -/
theorem finish_foldl_push {total : ℕ} (pieces : List (List UInt8))
    (htotal : pieces.flatten.length = total) :
    (pieces.foldl push (new total)).finish = crc32 pieces.flatten := by
  by_cases hbig : total ≥ 4096
  · have hnew : Pushed (total / 3) (total / 3 * 2) [] (new total) :=
      ⟨rfl, by simp [new, hbig], by simp [new, crc32cUpdate]⟩
    have hrun : ∀ (ps : List (List UInt8)) (xs : List UInt8) (d : DeltaDigest),
        Pushed (total / 3) (total / 3 * 2) xs d →
        Pushed (total / 3) (total / 3 * 2) (xs ++ ps.flatten) (ps.foldl push d) := by
      intro ps
      induction ps with
      | nil => intro xs d h; simpa using h
      | cons p ps ih =>
        intro xs d h
        rw [List.flatten_cons, ← List.append_assoc, List.foldl_cons]
        exact ih _ _ (pushed_push (by omega) h)
    have h := hrun pieces [] _ hnew
    rw [List.nil_append] at h
    rw [finish, h.split_eq, crc32, htotal, if_neg (by omega)]
    simp only [h.parts_eq]
    rw [show total / 3 * 2 - total / 3 = total / 3 by omega]
  · have hrun : ∀ (ps : List (List UInt8)) (d : DeltaDigest), d.split = none →
        (ps.foldl push d).split = none ∧
          (ps.foldl push d).parts.1 = crc32cUpdate d.parts.1 ps.flatten := by
      intro ps
      induction ps with
      | nil => intro d h; exact ⟨h, by simp [crc32cUpdate]⟩
      | cons p ps ih =>
        intro d h
        rw [List.foldl_cons, List.flatten_cons, crc32cUpdate_append]
        have := ih (d.push p) (by simp [push, h])
        simpa [push, h] using this
    obtain ⟨h1, h2⟩ := hrun pieces (new total) (by simp [new, hbig])
    rw [finish, h1, h2, crc32, htotal, if_pos (by omega), crc32One]
    rfl

end DeltaDigest

end Turbovec.IoV7
