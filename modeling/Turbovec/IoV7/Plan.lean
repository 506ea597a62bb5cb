import Mathlib.Data.Finset.Sort
import Turbovec.IoV7.RoundTrip

/-!
# Planning an incremental sync

A sync writes the blocks that only carry old ops and the blocks appended since the last commit, folds
their bytes into the delta digest as it goes, and commits a header that names them. A reader folds the
same blocks from the file. Both digests, and the one over a list of units, are the checksum of one byte
string.
-/

namespace Turbovec.IoV7

open LittleEndian Slice Grid Pack

/-! ## What a sync writes -/

section Units

variable (liveBlocks : ℕ) (pending fresh : Finset ℕ)

/-- The slots of blocks committed both before and after the sync. -/
def live (s : Finset ℕ) : Finset ℕ := s.filter (· < liveBlocks * BLOCK)

def freshUnits : Finset ℕ := (live liveBlocks fresh).image (· / BLOCK)

/-- The blocks with only pending ops, rewritten whole. -/
def materialize : List ℕ :=
  (((live liveBlocks pending).image (· / BLOCK)).filter (· ∉ freshUnits liveBlocks fresh)).sort

/-- The slots whose ops ride the new header. -/
def carried : List ℕ :=
  ((live liveBlocks (pending ∪ fresh)).filter (· / BLOCK ∈ freshUnits liveBlocks fresh)).sort

end Units

/-- Put a slot in the last op group when it is of that block, else open a group. -/
def pushSlot (groups : List (ℕ × List ℕ)) (s : ℕ) : List (ℕ × List ℕ) :=
  match groups.getLast? with
  | some (b, slots) =>
    if b = s / BLOCK then groups.dropLast ++ [(b, slots ++ [s])] else groups ++ [(s / BLOCK, [s])]
  | none => groups ++ [(s / BLOCK, [s])]

/-- The digest of the written blocks, each folded in as it is built. -/
def planDigest (src : SyncSource) (gen : ℕ) (blocks : List ℕ) : UInt32 :=
  (blocks.foldl (fun d b => (d.push (leBytes 4 b)).push (unitBytes src b))
    ((DeltaDigest.new (8 + blocks.length * (4 + src.geo.unitLen))).push (leBytes 8 gen))).finish

/-- Barrier-separated batches of positioned writes, and what holds once the last one lands. -/
structure SyncPlan where
  batches : List (List (ℕ × List UInt8))
  newCursor : SyncCursor
  carried : List ℕ

section Plan

variable (src : SyncSource) (cursor : SyncCursor) (pending fresh : Finset ℕ)

def oldBlocks : ℕ := cursor.nSynced / BLOCK

def newBlocks : ℕ := src.nVectors / BLOCK

def liveBlocks : ℕ := min (oldBlocks cursor) (newBlocks src)

/-- The materialised blocks, then the appended ones. -/
def writtenBlocks : List ℕ :=
  materialize (liveBlocks src cursor) pending fresh ++
    List.range' (oldBlocks cursor) (newBlocks src - oldBlocks cursor)

/-- The wipe of a stale header of this generation: its bytes zeroed, its generation of the wrong parity. -/
def clearBytes (geo : Geo) (gen used : ℕ) : List UInt8 :=
  let used := max 8 (min used geo.hdrLen)
  leBytes 8 ((gen % 2) ^^^ 1) ++ List.replicate (used - 8) 0

/-- One incremental sync, from the committed state to the live one. `none` asks for a full rewrite. -/
def planIncremental (clearTarget : Option ℕ) : Option SyncPlan :=
  let geo := src.geo
  let live := liveBlocks src cursor
  let gen := cursor.gen + 1
  let carriedSlots := carried live pending fresh
  if carriedSlots.length > MAX_OPS then none
  else
    let groups := carriedSlots.foldl pushSlot []
    let blocks := writtenBlocks src cursor pending fresh
    let units := blocks.map fun b => (geo.unitAt b, unitBytes src b)
    let slot := gen % 2
    let header := headerSlot src gen src.nVectors groups
      ⟨materialize live pending fresh, (oldBlocks cursor, newBlocks src), planDigest src gen blocks⟩
    let batch := units ++ [(geo.hdrAt slot, header)]
    some ⟨match clearTarget with
      | some used => [[(geo.hdrAt slot, clearBytes geo gen used)], batch]
      | none => [batch],
      { cursor with gen := gen, nSynced := src.nVectors }, carriedSlots⟩

end Plan

/-! ## One digest -/

section Digest

variable {src : SyncSource} {cursor : SyncCursor} {pending fresh : Finset ℕ}

/-- Every written block is a whole block of the live state. -/
theorem lt_newBlocks {b : ℕ} (hb : b ∈ writtenBlocks src cursor pending fresh) : b < newBlocks src := by
  unfold writtenBlocks at hb
  rcases List.mem_append.1 hb with hmat | happ
  · rw [materialize, Finset.mem_sort, Finset.mem_filter, Finset.mem_image] at hmat
    obtain ⟨⟨s, hs, rfl⟩, -⟩ := hmat
    have hlive : s < liveBlocks src cursor * BLOCK := (Finset.mem_filter.1 hs).2
    have hle : liveBlocks src cursor ≤ newBlocks src := Nat.min_le_right _ _
    have hdiv : s / BLOCK < liveBlocks src cursor := Nat.div_lt_of_lt_mul (by rwa [Nat.mul_comm])
    omega
  · rw [List.mem_range'_1] at happ
    omega

/-- Pushing a block's number and then its unit is pushing the pieces of the digest. -/
theorem foldl_unit_push (unit : ℕ → List UInt8) (blocks : List ℕ) (d : DeltaDigest) :
    blocks.foldl (fun d b => (d.push (leBytes 4 b)).push (unit b)) d =
      ((blocks.map fun b => (b, unit b)).flatMap fun u => [leBytes 4 u.1, u.2]).foldl
        DeltaDigest.push d := by
  induction blocks generalizing d with
  | nil => rfl
  | cons b blocks ih =>
    rw [List.foldl_cons, ih, List.map_cons, List.flatMap_cons, List.foldl_append]
    rfl

/-- The bytes under a digest whose units all have one length. -/
theorem length_digestPieces {gen m : ℕ} {units : List (ℕ × List UInt8)}
    (hlen : ∀ u ∈ units, u.2.length = m) :
    (digestPieces gen units).flatten.length = 8 + units.length * (4 + m) := by
  induction units with
  | nil => simp [digestPieces]
  | cons u units ih =>
    have hu : u.2.length = m := hlen u List.mem_cons_self
    have hrest := ih fun w hw => hlen w (List.mem_cons_of_mem u hw)
    simp only [digestPieces, List.flatten_cons, List.length_append, length_leBytes] at hrest
    simp only [digestPieces, List.flatMap_cons, List.flatten_cons, List.flatten_append,
      List.length_append, length_leBytes, List.length_cons, List.flatten_nil, List.length_nil, hu]
    have : (units.length + 1) * (4 + m) = units.length * (4 + m) + (4 + m) := by ring
    omega

/-- What a sync records is the digest of the units it writes. -/
theorem planDigest_eq {gen : ℕ} {blocks : List ℕ}
    (hlen : ∀ b ∈ blocks, (unitBytes src b).length = src.geo.unitLen) :
    planDigest src gen blocks = deltaDigest gen (blocks.map fun b => (b, unitBytes src b)) := by
  have hpieces : (digestPieces gen (blocks.map fun b => (b, unitBytes src b))).flatten.length =
      8 + blocks.length * (4 + src.geo.unitLen) := by
    have hmap := @length_digestPieces gen src.geo.unitLen (blocks.map fun b => (b, unitBytes src b)) ?_
    · rwa [List.length_map] at hmap
    · intro u hu
      obtain ⟨b, hb, rfl⟩ := List.mem_map.1 hu
      exact hlen b hb
  rw [deltaDigest_eq, ← DeltaDigest.finish_foldl_push _ hpieces, planDigest, foldl_unit_push]
  rfl

/-- The reader's reconstruction, when every named unit is there. -/
theorem deltaVerified_eq {h : ParsedHdr} {unitLen : ℕ} {feedUnit : ℕ → Option (List UInt8)}
    {units : List (ℕ × List UInt8)} (hblocks : h.deltaBlocks = units.map Prod.fst)
    (hfeed : ∀ u ∈ units, feedUnit u.1 = some u.2 ∧ u.2.length = unitLen) :
    deltaVerified h unitLen feedUnit = decide ((deltaDigest h.gen units).toNat = h.deltaCrc) := by
  have hread : (units.map Prod.fst).mapM feedUnit = some (units.map Prod.snd) := by
    rw [mapM_eq_some, List.forall₂_map_left_iff, List.forall₂_map_right_iff, List.forall₂_same]
    intro u hu
    exact (hfeed u hu).1
  have hzip : (units.map Prod.fst).zip (units.map Prod.snd) = units := by
    rw [← List.unzip_fst, ← List.unzip_snd, List.zip_unzip]
  have hpieces := @length_digestPieces h.gen unitLen units fun u hu => (hfeed u hu).2
  have hfin := DeltaDigest.finish_foldl_push _ hpieces
  rw [digestPieces, List.foldl_cons] at hfin
  unfold deltaVerified
  dsimp only
  rw [hblocks, foldlM_push, hread, List.length_map]
  simp only [Option.map_some, hzip, hfin, deltaDigest_eq]
  rfl

/-- The last batch of a plan: the units it writes, and the header that records their digest. -/
theorem planIncremental_batch (hids : src.IdsOk) (hcodes : ∀ b < newBlocks src,
      (src.unitCodes (b * BLOCK) (b * BLOCK + BLOCK)).length = src.geo.blockBytes)
    {clearTarget : Option ℕ} {plan : SyncPlan}
    (h : planIncremental src cursor pending fresh clearTarget = some plan) :
    ∃ ops, plan.batches.getLast? = some
      (((writtenBlocks src cursor pending fresh).map fun b => (src.geo.unitAt b, unitBytes src b)) ++
        [(src.geo.hdrAt ((cursor.gen + 1) % 2), headerSlot src (cursor.gen + 1) src.nVectors ops
          ⟨materialize (liveBlocks src cursor) pending fresh, (oldBlocks cursor, newBlocks src),
            deltaDigest (cursor.gen + 1) ((writtenBlocks src cursor pending fresh).map
              fun b => (b, unitBytes src b))⟩)]) := by
  have hdigest : planDigest src (cursor.gen + 1) (writtenBlocks src cursor pending fresh) =
      deltaDigest (cursor.gen + 1) ((writtenBlocks src cursor pending fresh).map
        fun b => (b, unitBytes src b)) := by
    apply planDigest_eq
    intro b hb
    exact length_unitBytes hids (hcodes b (lt_newBlocks hb))
  unfold planIncremental at h
  dsimp only at h
  split at h
  · cases h
  · cases h
    rw [hdigest]
    cases clearTarget with
    | none => exact ⟨_, rfl⟩
    | some used => exact ⟨_, rfl⟩

/-- Whatever pieces a string is pushed in, the digest is its checksum; so what a sync records, the digest
over the list of its units, and what a reader reconstructs from the same units are one value. -/
theorem delta_digests_agree :
    (∀ pieces : List (List UInt8),
      (pieces.foldl DeltaDigest.push (DeltaDigest.new pieces.flatten.length)).finish =
        crc32 pieces.flatten) ∧
    (∀ gen units, deltaDigest gen units = crc32 (digestPieces gen units).flatten) ∧
    (∀ (h : ParsedHdr) unitLen feedUnit units, h.deltaBlocks = units.map Prod.fst →
      (∀ u ∈ units, feedUnit u.1 = some u.2 ∧ u.2.length = unitLen) →
      deltaVerified h unitLen feedUnit = decide ((deltaDigest h.gen units).toNat = h.deltaCrc)) ∧
    (∀ (src : SyncSource) (cursor : SyncCursor) (pending fresh : Finset ℕ) clearTarget plan,
      src.IdsOk →
      (∀ b < newBlocks src,
        (src.unitCodes (b * BLOCK) (b * BLOCK + BLOCK)).length = src.geo.blockBytes) →
      planIncremental src cursor pending fresh clearTarget = some plan →
      ∃ ops, plan.batches.getLast? = some
        (((writtenBlocks src cursor pending fresh).map fun b => (src.geo.unitAt b, unitBytes src b)) ++
          [(src.geo.hdrAt ((cursor.gen + 1) % 2), headerSlot src (cursor.gen + 1) src.nVectors ops
            ⟨materialize (liveBlocks src cursor) pending fresh, (oldBlocks cursor, newBlocks src),
              deltaDigest (cursor.gen + 1) ((writtenBlocks src cursor pending fresh).map
                fun b => (b, unitBytes src b))⟩)])) := by
  refine ⟨fun pieces => DeltaDigest.finish_foldl_push pieces rfl, deltaDigest_eq,
    fun h unitLen feedUnit units hblocks hfeed => deltaVerified_eq hblocks hfeed, ?_⟩
  intro src cursor pending fresh clearTarget plan hids hcodes hplan
  exact planIncremental_batch hids hcodes hplan

/-- Two one-byte units fed back to the reader of the header that names them. -/
theorem delta_digests_agree_two :
    deltaVerified ⟨1, 0, 0, [], [0, 2], (0, 0), (deltaDigest 1 [(0, [7]), (2, [9])]).toNat, 0⟩ 1
      (fun b => if b = 0 then some [7] else some [9]) = true := by
  have h := delta_digests_agree.2.2.1
    ⟨1, 0, 0, [], [0, 2], (0, 0), (deltaDigest 1 [(0, [7]), (2, [9])]).toNat, 0⟩ 1
    (fun b => if b = 0 then some [7] else some [9]) [(0, [7]), (2, [9])] rfl (by decide)
  exact h.trans (decide_eq_true rfl)

end Digest

end Turbovec.IoV7
