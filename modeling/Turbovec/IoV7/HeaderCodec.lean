import Turbovec.IoV7.Declared

/-!
# The commit header codec

The writer, the parser, the slot's capacity and the probe length are four computations over the same
groups. They agree on every header whose block numbers fit the 32 bits the format gives them; a larger
block number is narrowed silently by the writer, and the header says another block.
-/

namespace Turbovec.IoV7

open LittleEndian Slice Grid Pack

/-- What a sync hands the header writer: the rows write their geometry's bytes, every group is of a
committed block and lists distinct lanes of it, and there are at most `MAX_OPS` ops and as many
materialised blocks. -/
structure HeaderInput (src : SyncSource) (gen n : ℕ) (ops : List (ℕ × List ℕ)) (delta : Delta) : Prop where
  gen_lt : gen < 2 ^ 64
  n_lt : n < 2 ^ 64
  ids : src.IdsOk
  rows : ∀ r < n, (src.rowCodes r).length = src.geo.rowBytes
  block_lt : ∀ g ∈ ops, g.1 < n / BLOCK
  slots : ∀ g ∈ ops, ∀ s ∈ g.2, s / BLOCK = g.1
  lanes : ∀ g ∈ ops, (g.2.map (· % BLOCK)).Nodup
  total : (ops.map fun g => g.2.length).sum ≤ MAX_OPS
  mat_le : delta.mat.length ≤ MAX_OPS

/-- The header fits its slot; whatever follows it in the slot, any prefix of the slot parses to what was
written or to nothing, to what was written once it covers the bytes written, the probe among them when there
are no ops; and each op's payload lies where the header says. -/
structure HeaderCodec (src : SyncSource) (gen n : ℕ) (ops : List (ℕ × List ℕ)) (delta : Delta) : Prop where
  fits : (headerSlot src gen n ops delta).length ≤ src.geo.hdrLen
  parse : ∀ rest at_ fileLen k, src.geo.unitAt (n / BLOCK) ≤ fileLen →
    (headerSlot src gen n ops delta).length ≤ k →
    parseHeaderAt ((headerSlot src gen n ops delta ++ rest).take k) at_ src.geo (gen % 2) fileLen =
      some (placedHdr src.geo at_ gen n ops delta (headerSlot src gen n ops delta).length)
  short : ∀ rest at_ fileLen k, src.geo.unitAt (n / BLOCK) ≤ fileLen →
    parseHeaderAt ((headerSlot src gen n ops delta ++ rest).take k) at_ src.geo (gen % 2) fileLen = none ∨
    parseHeaderAt ((headerSlot src gen n ops delta ++ rest).take k) at_ src.geo (gen % 2) fileLen =
      some (placedHdr src.geo at_ gen n ops delta (headerSlot src gen n ops delta).length)
  probe : ops = [] → (headerSlot src gen n ops delta).length ≤ src.geo.hdrProbeLen
  payloads : ∀ raw at_ used, Holds raw at_ (headerSlot src gen n ops delta) →
    ownOps raw src.geo.recLen (placedHdr src.geo at_ gen n ops delta used).groups =
      some (ops.map fun g => (g.1, g.2.map fun s => (s, recBytes src s)))

/-- The block numbers a header carries fit their fields, and so does the group count. -/
structure BlocksFit (ops : List (ℕ × List ℕ)) (delta : Delta) : Prop where
  groups_le : ops.length ≤ MAX_OPS
  ops : ∀ g ∈ ops, g.1 < 2 ^ 32
  mat : ∀ b ∈ delta.mat, b < 2 ^ 32
  app : delta.app.1 < 2 ^ 32 ∧ delta.app.2 < 2 ^ 32

section Codec

variable {src : SyncSource} {gen n : ℕ} {ops : List (ℕ × List ℕ)} {delta : Delta}

theorem HeaderInput.length_rec (h : HeaderInput src gen n ops delta) {r : ℕ} (hr : r < n) :
    (recBytes src r).length = src.geo.recLen :=
  length_recBytes h.ids (h.rows r hr)

theorem HeaderInput.tailFits (h : HeaderInput src gen n ops delta) : TailFits src n := by
  intro k hk
  have := Nat.mod_le n BLOCK
  exact h.length_rec (by omega)

theorem HeaderInput.slot_lt (h : HeaderInput src gen n ops delta) {g : ℕ × List ℕ} (hg : g ∈ ops) {s : ℕ}
    (hs : s ∈ g.2) : s < n := by
  have hslot := h.slots g hg s hs
  have hblock := h.block_lt g hg
  simp only [BLOCK] at hslot hblock
  omega

/-- Distinct lanes of one block are at most 32. -/
theorem HeaderInput.count_le (h : HeaderInput src gen n ops delta) {g : ℕ × List ℕ} (hg : g ∈ ops) :
    g.2.length ≤ BLOCK := by
  have hsub : g.2.map (· % BLOCK) ⊆ List.range BLOCK := by
    intro l hl
    obtain ⟨s, -, rfl⟩ := List.mem_map.mp hl
    exact List.mem_range.mpr (Nat.mod_lt _ (by decide))
  have := (h.lanes g hg).length_le_of_subset hsub
  rwa [List.length_map, List.length_range] at this

theorem HeaderInput.opsFit (h : HeaderInput src gen n ops delta) (hle : ops.length ≤ MAX_OPS) :
    OpsFit src n ops := by
  refine ⟨hle, fun g hg => ?_, fun g hg => ?_, fun g hg s hs => ?_⟩
  · exact (Nat.mod_le _ _).trans_lt (h.block_lt g hg)
  · exact (h.count_le hg).trans_lt (by decide)
  · exact h.length_rec (h.slot_lt hg hs)

/-! ## Capacity -/

theorem length_groups {opSize : ℕ} (ops : List (ℕ × List ℕ))
    (h : ∀ g ∈ ops, (groupBytes src g).length = 5 + g.2.length * opSize) :
    (ops.flatMap (groupBytes src)).length = ops.length * 5 + (ops.map fun g => g.2.length).sum * opSize := by
  induction ops with
  | nil => simp
  | cons g ops ih =>
    rw [List.flatMap_cons, List.length_append, h g List.mem_cons_self,
      ih fun g hg => h g (List.mem_cons_of_mem _ hg), List.length_cons, List.map_cons, List.sum_cons]
    ring

theorem HeaderInput.length_headerSlot (h : HeaderInput src gen n ops delta) :
    (headerSlot src gen n ops delta).length = 16 + n % BLOCK * src.geo.recLen + 4 +
      (ops.length * 5 + (ops.map fun g => g.2.length).sum * src.geo.opSize) + 4 + delta.mat.length * 4 +
        12 + 4 := by
  have hgroups := @length_groups src src.geo.opSize ops fun g hg =>
    length_groupBytes fun s hs => h.length_rec (h.slot_lt hg hs)
  rw [headerSlot, List.length_append, length_headerBody h.tailFits, hgroups, u32Bytes, length_leBytes]

theorem HeaderInput.tail_le (_h : HeaderInput src gen n ops delta) :
    n % BLOCK * src.geo.recLen ≤ 31 * src.geo.recLen := by
  have : n % BLOCK < BLOCK := Nat.mod_lt _ (by decide)
  exact Nat.mul_le_mul_right _ (Nat.le_of_lt_succ this)

theorem HeaderInput.fits (h : HeaderInput src gen n ops delta) (hle : ops.length ≤ MAX_OPS) :
    (headerSlot src gen n ops delta).length ≤ src.geo.hdrLen := by
  have htail := h.tail_le
  have htotal := Nat.mul_le_mul_right src.geo.opSize h.total
  have hmat := h.mat_le
  have hrec : src.geo.recLen = src.geo.rowBytes + 4 + src.geo.idBytes 1 := rfl
  rw [h.length_headerSlot, Geo.hdrLen, ← hrec, Nat.mul_add]
  omega

theorem HeaderInput.probe (h : HeaderInput src gen n [] delta) :
    (headerSlot src gen n [] delta).length ≤ src.geo.hdrProbeLen := by
  have htail := h.tail_le
  have hmat := h.mat_le
  have hrec : src.geo.recLen = src.geo.rowBytes + 4 + src.geo.idBytes 1 := rfl
  rw [h.length_headerSlot, Geo.hdrProbeLen, ← hrec]
  simp only [List.length_nil, List.map_nil, List.sum_nil]
  omega

/-! ## Narrowing -/

theorem BlocksFit.narrow (h : BlocksFit ops delta) : narrow ops = ops ∧ delta.narrow = delta := by
  constructor
  · rw [IoV7.narrow]
    refine (List.map_congr_left fun g hg => ?_).trans (List.map_id ops)
    rw [Nat.mod_eq_of_lt (h.ops g hg)]
    rfl
  · have hmat : delta.mat.map (· % 2 ^ 32) = delta.mat :=
      (List.map_congr_left fun b hb => Nat.mod_eq_of_lt (h.mat b hb)).trans (List.map_id _)
    rw [Delta.narrow, hmat, Nat.mod_eq_of_lt h.app.1, Nat.mod_eq_of_lt h.app.2]

theorem map_fst_placedGroups (geo : Geo) (at_ p : ℕ) (ops : List (ℕ × List ℕ)) :
    (placedGroups geo at_ p ops).map Prod.fst = ops.map Prod.fst := by
  induction ops generalizing p with
  | nil => rfl
  | cons g ops ih => rw [placedGroups, List.map_cons, List.map_cons, ih]

theorem length_placedGroups (geo : Geo) (at_ p : ℕ) (ops : List (ℕ × List ℕ)) :
    (placedGroups geo at_ p ops).length = ops.length := by
  have := congrArg List.length (map_fst_placedGroups geo at_ p ops)
  rwa [List.length_map, List.length_map] at this

/-- A list equal to its residues is below the modulus. -/
theorem lt_of_map_mod {l : List ℕ} {m : ℕ} (hm : 0 < m) (h : l.map (· % m) = l) : ∀ b ∈ l, b < m := by
  intro b hb
  rw [← h] at hb
  obtain ⟨a, -, rfl⟩ := List.mem_map.mp hb
  exact Nat.mod_lt _ hm

/-- A narrowed header that says what was meant was not narrowed. -/
theorem blocksFit_of_placed {geo : Geo} {at_ used : ℕ} (hle : ops.length ≤ MAX_OPS)
    (h : placedHdr geo at_ gen n (narrow ops) delta.narrow used = placedHdr geo at_ gen n ops delta used) :
    BlocksFit ops delta := by
  have hgroups := congrArg (fun hdr => hdr.groups.map Prod.fst) h
  have hmat := congrArg ParsedHdr.deltaMat h
  have happ := congrArg ParsedHdr.deltaApp h
  simp only [placedHdr, map_fst_placedGroups, narrow, List.map_map] at hgroups
  simp only [placedHdr, Delta.narrow] at hmat happ
  obtain ⟨h1, h2⟩ := Prod.mk.inj happ
  have hfst : (ops.map Prod.fst).map (· % 2 ^ 32) = ops.map Prod.fst := by
    rw [List.map_map]
    exact hgroups
  refine ⟨hle, fun g hg => ?_, lt_of_map_mod (by decide) hmat, ?_, ?_⟩
  · exact lt_of_map_mod (by decide) hfst g.1 (List.mem_map_of_mem hg)
  · exact h1 ▸ Nat.mod_lt _ (by decide)
  · exact h2 ▸ Nat.mod_lt _ (by decide)

/-! ## The codec -/

/-- What the parser reads of the whole slot. -/
theorem HeaderInput.parse_slot (h : HeaderInput src gen n ops delta) (hle : ops.length ≤ MAX_OPS)
    (rest : List UInt8) (at_ : ℕ) {fileLen k : ℕ} (hfit : src.geo.unitAt (n / BLOCK) ≤ fileLen)
    (hk : (headerSlot src gen n ops delta).length ≤ k) :
    parseHeaderAt ((headerSlot src gen n ops delta ++ rest).take k) at_ src.geo (gen % 2) fileLen =
      some (placedHdr src.geo at_ gen n (narrow ops) delta.narrow
        (headerSlot src gen n ops delta).length) := by
  have hholds : Holds ((headerSlot src gen n ops delta ++ rest).take k) 0
      (headerSlot src gen n ops delta) := by
    rw [List.take_append, List.take_of_length_le hk]
    exact @holds_mid _ [] _ _ 0 rfl
  exact parseHeaderAt_placed at_ hholds h.gen_lt rfl h.n_lt hfit (h.opsFit hle) h.tailFits h.mat_le

theorem HeaderInput.wireGroups_eq (h : HeaderInput src gen n ops delta) (hfit : BlocksFit ops delta) :
    wireGroups src ops = ops.map fun g => (g.1, g.2.map fun s => (s, recBytes src s)) := by
  refine List.map_congr_left fun g hg => ?_
  rw [Nat.mod_eq_of_lt (hfit.ops g hg), wireOps]
  refine congrArg (Prod.mk g.1) (List.map_congr_left fun s hs => ?_)
  rw [← h.slots g hg s hs, Nat.div_add_mod']

/-- A header whose block numbers fit. -/
theorem headerCodec_of_fit (h : HeaderInput src gen n ops delta) (hfit : BlocksFit ops delta) :
    HeaderCodec src gen n ops delta := by
  have hparse (rest : List UInt8) (at_ fileLen k : ℕ) (hlen : src.geo.unitAt (n / BLOCK) ≤ fileLen)
      (hk : (headerSlot src gen n ops delta).length ≤ k) :
      parseHeaderAt ((headerSlot src gen n ops delta ++ rest).take k) at_ src.geo (gen % 2) fileLen =
        some (placedHdr src.geo at_ gen n ops delta (headerSlot src gen n ops delta).length) := by
    rw [h.parse_slot hfit.groups_le rest at_ hlen hk, hfit.narrow.1, hfit.narrow.2]
  refine ⟨h.fits hfit.groups_le, hparse, fun rest at_ fileLen k hlen => ?_, fun hops => ?_, ?_⟩
  · -- a header read from a prefix is the header the whole slot holds
    cases hp : parseHeaderAt ((headerSlot src gen n ops delta ++ rest).take k) at_ src.geo (gen % 2)
        fileLen with
    | none => exact Or.inl rfl
    | some hdr =>
      right
      have hwhole := hparse rest at_ fileLen (headerSlot src gen n ops delta ++ rest).length hlen
        (by rw [List.length_append]; omega)
      rw [List.take_length] at hwhole
      exact (parseHeaderAt_of_take hp).symm.trans hwhole
  · subst hops
    exact h.probe
  · intro raw at_ used hraw
    have hgroups := ownOps_placed hraw ops (h.opsFit hfit.groups_le).recs (holds_groups h.tailFits holds_self)
    rw [hfit.narrow.1, h.wireGroups_eq hfit] at hgroups
    exact hgroups

/-- A header the parser reads back fits: the counts and block numbers go through their fields. -/
theorem HeaderCodec.blocksFit (h : HeaderInput src gen n ops delta) (hc : HeaderCodec src gen n ops delta) :
    BlocksFit ops delta := by
  have hparse := hc.parse [] 0 _ _ le_rfl le_rfl
  obtain ⟨pMat, hf⟩ := parseHeaderAt_eq_some.mp hparse
  have hle := hf.nUnits_le
  rw [placedHdr, length_placedGroups] at hle
  rw [h.parse_slot hle [] 0 le_rfl le_rfl, Option.some.injEq] at hparse
  exact blocksFit_of_placed hle hparse

/-- The codec law holds of a header exactly when its block numbers fit. -/
theorem headerCodec_iff (h : HeaderInput src gen n ops delta) :
    HeaderCodec src gen n ops delta ↔ BlocksFit ops delta :=
  ⟨HeaderCodec.blocksFit h, headerCodec_of_fit h⟩

end Codec

/-- One op on lane `s % 32` of block `s / 32`, in a blank source of `n` rows. -/
theorem oneOp_input {gen n s : ℕ} (hgen : gen < 2 ^ 64) (hn : n < 2 ^ 64) (hs : s / BLOCK < n / BLOCK) :
    HeaderInput (blankSource n) gen n [(s / BLOCK, [s])] ⟨[], (0, 0), 0⟩ where
  gen_lt := hgen
  n_lt := hn
  ids := blankSource_ids n
  rows _ _ := (blankSource_rowBytes n).symm
  block_lt g hg := by
    rw [List.mem_singleton.mp hg]
    exact hs
  slots g hg s' hs' := by
    rw [List.mem_singleton.mp hg] at hs' ⊢
    rw [List.mem_singleton.mp hs']
  lanes g hg := by
    rw [List.mem_singleton.mp hg]
    exact List.nodup_singleton _
  total := by simp [MAX_OPS]
  mat_le := Nat.zero_le _

theorem headerCodec_oneOp : HeaderCodec (blankSource 33) 1 33 [(0, [5])] ⟨[], (0, 0), 0⟩ := by
  refine (headerCodec_iff (@oneOp_input 1 33 5 (by decide) (by decide) (by decide))).mpr ⟨by decide, ?_, ?_, ?_⟩
  · intro g hg
    rw [List.mem_singleton.mp hg]
    decide
  · intro b hb
    exact absurd hb List.not_mem_nil
  · exact ⟨by decide, by decide⟩

/-- An op on the block after `2 ^ 32` others is written as an op on block 0. -/
theorem headerCodec_narrowed :
    HeaderInput (blankSource (2 ^ 37 + 32)) 1 (2 ^ 37 + 32) [(2 ^ 37 / BLOCK, [2 ^ 37])] ⟨[], (0, 0), 0⟩ ∧
      ¬HeaderCodec (blankSource (2 ^ 37 + 32)) 1 (2 ^ 37 + 32) [(2 ^ 37 / BLOCK, [2 ^ 37])]
        ⟨[], (0, 0), 0⟩ := by
  have hin := @oneOp_input 1 (2 ^ 37 + 32) (2 ^ 37) (by decide) (by decide) (by decide)
  refine ⟨hin, fun hc => ?_⟩
  have hlt := (hc.blocksFit hin).ops _ (List.mem_singleton_self _)
  exact absurd hlt (by decide)

end Turbovec.IoV7
