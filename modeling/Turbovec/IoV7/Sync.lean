import Turbovec.Lib.Writes
import Turbovec.IoV7.Plan
import Turbovec.IoV7.HeaderCodec

/-!
# An incremental sync on the file

The writes of a planned sync, applied to the bytes of the file the cursor names. A sync rewrites the units that only
carry old ops, appends the new ones and commits a header whose ops stand for every other slot that changed; the file
then loads with the rows of the live state, whatever the state was before.
-/

namespace Turbovec.IoV7

open LittleEndian Slice Grid Pack

/-- `run_sync`: each batch's writes in order. -/
def runSync (raw : List UInt8) (plan : SyncPlan) : List UInt8 := plan.batches.foldl (writeAll 0) raw

/-! ## Op groups -/

/-- The groups list the slots in order, each group some slots of its block. -/
structure Grouped (groups : List (ℕ × List ℕ)) (slots : List ℕ) : Prop where
  slots_eq : groups.flatMap Prod.snd = slots
  blocks : ∀ g ∈ groups, g.2 ≠ [] ∧ ∀ s ∈ g.2, s / BLOCK = g.1

section Groups

variable {groups : List (ℕ × List ℕ)} {slots : List ℕ}

theorem Grouped.pushSlot (h : Grouped groups slots) (s : ℕ) : Grouped (pushSlot groups s) (slots ++ [s]) := by
  have hopen : Grouped (groups ++ [(s / BLOCK, [s])]) (slots ++ [s]) := by
    refine ⟨by rw [List.flatMap_append, h.slots_eq]; rfl, fun g hg => ?_⟩
    rcases List.mem_append.mp hg with hg | hg
    · exact h.blocks g hg
    · obtain rfl := List.mem_singleton.mp hg
      exact ⟨List.cons_ne_nil _ _, fun t ht => by rw [List.mem_singleton.mp ht]⟩
  unfold IoV7.pushSlot
  split
  · rename_i b last hlast
    obtain ⟨front, rfl⟩ := List.getLast?_eq_some_iff.mp hlast
    split
    · rename_i hb
      have hold := h.blocks (b, last) (List.mem_append_right _ List.mem_cons_self)
      rw [List.dropLast_concat]
      refine ⟨?_, fun g hg => ?_⟩
      · rw [← h.slots_eq, List.flatMap_append, List.flatMap_append, List.flatMap_singleton, List.flatMap_singleton,
          List.append_assoc]
      · rcases List.mem_append.mp hg with hg | hg
        · exact h.blocks g (List.mem_append_left _ hg)
        · obtain rfl := List.mem_singleton.mp hg
          refine ⟨by simp, fun t ht => ?_⟩
          rcases List.mem_append.mp ht with ht | ht
          · exact hold.2 t ht
          · rw [List.mem_singleton.mp ht, hb]
    · exact hopen
  · exact hopen

theorem grouped_foldl (slots : List ℕ) : Grouped (slots.foldl IoV7.pushSlot []) slots := by
  induction slots using List.reverseRecOn with
  | nil => exact ⟨rfl, fun g hg => by cases hg⟩
  | append_singleton slots s ih =>
    rw [List.foldl_append]
    exact ih.pushSlot s

theorem Grouped.sum_length (h : Grouped groups slots) : (groups.map fun g => g.2.length).sum = slots.length := by
  rw [← h.slots_eq, List.length_flatMap]

/-- There are no more groups than slots. -/
theorem Grouped.length_le (h : Grouped groups slots) : groups.length ≤ slots.length := by
  rw [← h.sum_length, ← @List.length_map _ _ groups fun g => g.2.length]
  refine List.length_le_sum_of_one_le _ fun n hn => ?_
  obtain ⟨g, hg, rfl⟩ := List.mem_map.mp hn
  exact List.length_pos_iff.mpr (h.blocks g hg).1

theorem Grouped.mem (h : Grouped groups slots) {g : ℕ × List ℕ} (hg : g ∈ groups) {s : ℕ} (hs : s ∈ g.2) :
    s ∈ slots := by
  rw [← h.slots_eq]
  exact List.mem_flatMap.mpr ⟨g, hg, hs⟩

/-- Distinct slots are distinct lanes of their groups. -/
theorem Grouped.lanes (h : Grouped groups slots) (hn : slots.Nodup) {g : ℕ × List ℕ} (hg : g ∈ groups) :
    (g.2.map (· % BLOCK)).Nodup := by
  have hnodup : g.2.Nodup := by
    rw [← h.slots_eq, List.flatMap_def, List.nodup_flatten] at hn
    exact hn.1 g.2 (List.mem_map_of_mem hg)
  refine List.Nodup.map_on (fun s hs t ht hst => ?_) hnodup
  have hs' := (h.blocks g hg).2 s hs
  have ht' := (h.blocks g hg).2 t ht
  rw [← Nat.div_add_mod' s BLOCK, ← Nat.div_add_mod' t BLOCK, hs', ht', hst]

/-- The slots the ops of a header name are the slots grouped. -/
theorem Grouped.wireSlots (h : Grouped groups slots) (hfit : ∀ g ∈ groups, g.1 < 2 ^ 32) :
    wireSlots groups = slots := by
  rw [IoV7.wireSlots, ← h.slots_eq]
  refine List.flatMap_congr fun g hg => ?_
  rw [Nat.mod_eq_of_lt (hfit g hg)]
  conv_rhs => rw [← List.map_id g.2]
  refine List.map_congr_left fun s hs => ?_
  rw [← (h.blocks g hg).2 s hs, Nat.div_add_mod']
  rfl

end Groups

/-! ## The header a sync commits -/

section Plan

variable {T : Tables} {src : SyncSource} {cursor : SyncCursor} {pending fresh : Finset ℕ}

theorem mem_freshUnits {liveBlocks b : ℕ} {s : Finset ℕ} :
    b ∈ freshUnits liveBlocks s ↔ ∃ v ∈ s, v < liveBlocks * BLOCK ∧ v / BLOCK = b := by
  simp only [freshUnits, live, Finset.mem_image, Finset.mem_filter, and_assoc]

theorem mem_carried {liveBlocks v : ℕ} : v ∈ carried liveBlocks pending fresh ↔
    v ∈ pending ∪ fresh ∧ v < liveBlocks * BLOCK ∧ v / BLOCK ∈ freshUnits liveBlocks fresh := by
  simp only [carried, live, Finset.mem_sort, Finset.mem_filter, and_assoc]

theorem mem_materialize {liveBlocks b : ℕ} : b ∈ materialize liveBlocks pending fresh ↔
    (∃ v ∈ pending, v < liveBlocks * BLOCK ∧ v / BLOCK = b) ∧ b ∉ freshUnits liveBlocks fresh := by
  simp only [materialize, live, Finset.mem_sort, Finset.mem_filter, Finset.mem_image, and_assoc]

theorem length_materialize_le (liveBlocks : ℕ) : (materialize liveBlocks pending fresh).length ≤ pending.card := by
  rw [materialize, Finset.length_sort]
  exact (Finset.card_filter_le _ _).trans (Finset.card_image_le.trans (Finset.card_filter_le _ _))

theorem length_carried_le (liveBlocks : ℕ) : (carried liveBlocks pending fresh).length ≤ (pending ∪ fresh).card := by
  rw [carried, Finset.length_sort]
  exact (Finset.card_filter_le _ _).trans (Finset.card_filter_le _ _)

/-- A slot below both watermarks that changed is carried, or its whole block is rewritten. -/
theorem carried_or_materialized {liveBlocks v : ℕ} (hv : v < liveBlocks * BLOCK) (hd : v ∈ pending ∪ fresh) :
    v ∈ carried liveBlocks pending fresh ∨ v / BLOCK ∈ materialize liveBlocks pending fresh := by
  by_cases hf : v / BLOCK ∈ freshUnits liveBlocks fresh
  · exact Or.inl (mem_carried.mpr ⟨hd, hv, hf⟩)
  · right
    rcases Finset.mem_union.mp hd with hp | hfr
    · exact mem_materialize.mpr ⟨⟨v, hp, hv, rfl⟩, hf⟩
    · exact absurd (mem_freshUnits.mpr ⟨v, hfr, hv, rfl⟩) hf

/-- The op groups of a sync's header. -/
def syncGroups (src : SyncSource) (cursor : SyncCursor) (pending fresh : Finset ℕ) : List (ℕ × List ℕ) :=
  (carried (liveBlocks src cursor) pending fresh).foldl pushSlot []

/-- The delta of a sync's header. -/
def syncDelta (src : SyncSource) (cursor : SyncCursor) (pending fresh : Finset ℕ) : Delta :=
  ⟨materialize (liveBlocks src cursor) pending fresh, (oldBlocks cursor, newBlocks src),
    deltaDigest (cursor.gen + 1) ((writtenBlocks src cursor pending fresh).map fun b => (b, unitBytes src b))⟩

/-- The header a sync commits. -/
def syncHeader (src : SyncSource) (cursor : SyncCursor) (pending fresh : Finset ℕ) : List UInt8 :=
  headerSlot src (cursor.gen + 1) src.nVectors (syncGroups src cursor pending fresh)
    (syncDelta src cursor pending fresh)

/-- What a sync can be asked to commit: the generation, the nonce and the block numbers fit their fields, and no more
slots are pending than a header lists. -/
structure Committable (src : SyncSource) (cursor : SyncCursor) (pending : Finset ℕ) : Prop where
  gen_lt : cursor.gen + 1 < 2 ^ 64
  nonce_lt : cursor.nonce < 2 ^ 64
  old_lt : oldBlocks cursor < 2 ^ 32
  new_lt : newBlocks src < 2 ^ 32
  pending_le : pending.card ≤ MAX_OPS

theorem carried_block_lt {v : ℕ} (hv : v ∈ carried (liveBlocks src cursor) pending fresh) :
    v / BLOCK < newBlocks src := by
  have hlt := (mem_carried.mp hv).2.1
  have hle : liveBlocks src cursor ≤ newBlocks src := Nat.min_le_right _ _
  have : v / BLOCK < liveBlocks src cursor := Nat.div_lt_of_lt_mul (by rwa [Nat.mul_comm])
  omega

theorem syncGroups_block {g : ℕ × List ℕ} (hg : g ∈ syncGroups src cursor pending fresh) : g.1 < newBlocks src := by
  have hgr := grouped_foldl (carried (liveBlocks src cursor) pending fresh)
  obtain ⟨hne, hblock⟩ := hgr.blocks g hg
  obtain ⟨s, hs⟩ := List.exists_mem_of_ne_nil _ hne
  rw [← hblock s hs]
  exact carried_block_lt (hgr.mem hg hs)

/-- A sync's header is one the writer and the parser agree on. -/
theorem syncHeader_input (hw : SourceWf T src) (hc : Committable src cursor pending)
    (hle : (carried (liveBlocks src cursor) pending fresh).length ≤ MAX_OPS) :
    HeaderInput src (cursor.gen + 1) src.nVectors (syncGroups src cursor pending fresh)
      (syncDelta src cursor pending fresh) := by
  have hgr := grouped_foldl (carried (liveBlocks src cursor) pending fresh)
  refine ⟨hc.gen_lt, hw.n_lt, hw.ids, hw.rows, fun g hg => syncGroups_block hg, fun g hg => (hgr.blocks g hg).2,
    fun g hg => hgr.lanes (Finset.sort_nodup _ _) hg, ?_, ?_⟩
  · exact hgr.sum_length.trans_le hle
  · exact (length_materialize_le _).trans hc.pending_le

theorem syncHeader_fits (hc : Committable src cursor pending)
    (hle : (carried (liveBlocks src cursor) pending fresh).length ≤ MAX_OPS) :
    BlocksFit (syncGroups src cursor pending fresh) (syncDelta src cursor pending fresh) := by
  have hnew := hc.new_lt
  refine ⟨?_, fun g hg => ?_, fun b hb => ?_, hc.old_lt, hc.new_lt⟩
  · exact (grouped_foldl (carried (liveBlocks src cursor) pending fresh)).length_le.trans hle
  · exact (syncGroups_block hg).trans hnew
  · exact (lt_newBlocks (List.mem_append_left _ hb)).trans hnew

/-- The writes of a planned sync: the wipe of a stale header if one is asked for, the units, and the header. -/
theorem planIncremental_writes (hw : SourceWf T src) {clearTarget : Option ℕ} {plan : SyncPlan}
    (h : planIncremental src cursor pending fresh clearTarget = some plan) (raw : List UInt8) :
    (carried (liveBlocks src cursor) pending fresh).length ≤ MAX_OPS ∧
    plan.carried = carried (liveBlocks src cursor) pending fresh ∧
    plan.newCursor = { cursor with gen := cursor.gen + 1, nSynced := src.nVectors } ∧
    runSync raw plan = writeAll 0 (match clearTarget with
        | some used => writeAt 0 raw (src.geo.hdrAt ((cursor.gen + 1) % 2)) (clearBytes src.geo (cursor.gen + 1) used)
        | none => raw)
      ((writtenBlocks src cursor pending fresh).map (fun b => (src.geo.unitAt b, unitBytes src b)) ++
        [(src.geo.hdrAt ((cursor.gen + 1) % 2), syncHeader src cursor pending fresh)]) := by
  have hdigest : planDigest src (cursor.gen + 1) (writtenBlocks src cursor pending fresh) =
      deltaDigest (cursor.gen + 1) ((writtenBlocks src cursor pending fresh).map
        fun b => (b, unitBytes src b)) :=
    planDigest_eq fun b hb => length_unitBytes hw.ids (hw.units b (lt_newBlocks hb))
  unfold planIncremental at h
  dsimp only at h
  split at h
  · cases h
  · rename_i hle
    cases h
    refine ⟨Nat.le_of_not_lt hle, rfl, rfl, ?_⟩
    rw [runSync, hdigest]
    cases clearTarget with
    | none => rfl
    | some used => rfl

end Plan

/-! ## The file after a sync -/

theorem Geo.hdrAt_add_le (geo : Geo) {slot : ℕ} (hs : slot < 2) (b : ℕ) :
    geo.hdrAt slot + geo.hdrLen ≤ geo.unitAt b := by
  rw [← geo.hdrAt_succ]
  exact (geo.hdrAt_le_unitAt (by omega)).trans (geo.unitAt_mono (Nat.zero_le b))

/-- The two slots do not meet. -/
theorem Geo.slots_apart (geo : Geo) {s s' : ℕ} (hs : s < 2) (hs' : s' < 2) (hne : s ≠ s') :
    geo.hdrAt s + geo.hdrLen ≤ geo.hdrAt s' ∨ geo.hdrAt s' + geo.hdrLen ≤ geo.hdrAt s := by
  have h1 := geo.hdrAt_one
  have hcases : s = 0 ∧ s' = 1 ∨ s = 1 ∧ s' = 0 := by omega
  rcases hcases with ⟨rfl, rfl⟩ | ⟨rfl, rfl⟩
  · exact Or.inl h1.ge
  · exact Or.inr h1.ge

theorem eight_le_hdrLen (geo : Geo) : 8 ≤ geo.hdrLen := by
  simp only [Geo.hdrLen]
  omega

theorem length_clearBytes_le (geo : Geo) (gen used : ℕ) : (clearBytes geo gen used).length ≤ geo.hdrLen := by
  have := eight_le_hdrLen geo
  simp only [clearBytes, List.length_append, length_leBytes, List.length_replicate]
  omega

section Written

variable {T : Tables} {src : SyncSource} {cursor : SyncCursor} {pending fresh : Finset ℕ} {raw : List UInt8}

/-- No block is written twice. -/
theorem nodup_writtenBlocks : (writtenBlocks src cursor pending fresh).Nodup := by
  refine List.Nodup.append (Finset.sort_nodup _ _) List.nodup_range' fun b hmat happ => ?_
  obtain ⟨⟨v, -, hv, rfl⟩, -⟩ := mem_materialize.mp hmat
  have hlt : v / BLOCK < liveBlocks src cursor := Nat.div_lt_of_lt_mul (by rwa [Nat.mul_comm])
  have hle : liveBlocks src cursor ≤ oldBlocks cursor := Nat.min_le_left _ _
  have := (List.mem_range'_1.mp happ).1
  omega

theorem length_writtenUnit (hw : SourceWf T src) {b : ℕ} (hb : b ∈ writtenBlocks src cursor pending fresh) :
    (unitBytes src b).length = src.geo.unitLen :=
  length_unitBytes hw.ids (hw.units b (lt_newBlocks hb))

theorem length_syncHeader_le (hw : SourceWf T src) (hc : Committable src cursor pending)
    (hle : (carried (liveBlocks src cursor) pending fresh).length ≤ MAX_OPS) :
    (syncHeader src cursor pending fresh).length ≤ src.geo.hdrLen :=
  (syncHeader_input hw hc hle).fits (syncHeader_fits hc hle).groups_le

/-- The writes of a sync's last batch. -/
def syncWrites (src : SyncSource) (cursor : SyncCursor) (pending fresh : Finset ℕ) : List (ℕ × List UInt8) :=
  (writtenBlocks src cursor pending fresh).map (fun b => (src.geo.unitAt b, unitBytes src b)) ++
    [(src.geo.hdrAt ((cursor.gen + 1) % 2), syncHeader src cursor pending fresh)]

/-- The units and the header of a sync do not meet. -/
theorem syncWrites_apart (hw : SourceWf T src) (hc : Committable src cursor pending)
    (hle : (carried (liveBlocks src cursor) pending fresh).length ≤ MAX_OPS) :
    (syncWrites src cursor pending fresh).Pairwise Apart := by
  rw [syncWrites, List.pairwise_append, List.pairwise_map]
  refine ⟨?_, List.pairwise_singleton _ _, fun u hu h hh => ?_⟩
  · refine List.Pairwise.imp_of_mem (fun {a b} ha hb hne => ?_) nodup_writtenBlocks
    have hla : (unitBytes src a).length = src.geo.unitLen := length_writtenUnit hw ha
    have hlb : (unitBytes src b).length = src.geo.unitLen := length_writtenUnit hw hb
    rcases Nat.lt_or_gt_of_ne hne with hlt | hgt
    · have := src.geo.unitAt_add_le hlt
      exact Or.inl (by dsimp only; omega)
    · have := src.geo.unitAt_add_le hgt
      exact Or.inr (by dsimp only; omega)
  · obtain ⟨b, hb, rfl⟩ := List.mem_map.mp hu
    obtain rfl := List.mem_singleton.mp hh
    have hroom := src.geo.hdrAt_add_le (Nat.mod_lt (cursor.gen + 1) (by decide : 0 < 2)) b
    have hlen := length_syncHeader_le hw hc hle
    exact Or.inr (by dsimp only; omega)

/-- The bytes a sync leaves of a file. -/
structure Landed (src : SyncSource) (cursor : SyncCursor) (pending fresh : Finset ℕ) (raw raw' : List UInt8) :
    Prop where
  header : Holds raw' (src.geo.hdrAt ((cursor.gen + 1) % 2)) (syncHeader src cursor pending fresh)
  units : ∀ b ∈ writtenBlocks src cursor pending fresh, Holds raw' (src.geo.unitAt b) (unitBytes src b)
  length_le : raw.length ≤ raw'.length
  /-- every window that meets neither the slot nor a written unit is as it was -/
  frame : ∀ off xs, Holds raw off xs →
    (off + xs.length ≤ src.geo.hdrAt ((cursor.gen + 1) % 2) ∨
      src.geo.hdrAt ((cursor.gen + 1) % 2) + src.geo.hdrLen ≤ off) →
    (∀ b ∈ writtenBlocks src cursor pending fresh,
      off + xs.length ≤ src.geo.unitAt b ∨ src.geo.unitAt b + src.geo.unitLen ≤ off) →
    Holds raw' off xs

theorem landed (hw : SourceWf T src) (hc : Committable src cursor pending) {clearTarget : Option ℕ} {plan : SyncPlan}
    (hplan : planIncremental src cursor pending fresh clearTarget = some plan) :
    Landed src cursor pending fresh raw (runSync raw plan) := by
  obtain ⟨hle, -, -, hrun⟩ := planIncremental_writes hw hplan raw
  rw [← syncWrites] at hrun
  have hapart := @syncWrites_apart T src cursor pending fresh hw hc hle
  have hlen := length_syncHeader_le hw hc hle
  have hclear : ∀ used, (clearBytes src.geo (cursor.gen + 1) used).length ≤ src.geo.hdrLen := fun used =>
    length_clearBytes_le _ _ _
  rw [hrun]
  refine ⟨?_, fun b hb => ?_, ?_, fun off xs h hslot hunits => ?_⟩
  · have hmem : (src.geo.hdrAt ((cursor.gen + 1) % 2), syncHeader src cursor pending fresh) ∈
        syncWrites src cursor pending fresh := List.mem_append_right _ List.mem_cons_self
    have hne : syncHeader src cursor pending fresh ≠ [] := by simp [syncHeader, headerSlot, u32Bytes, leBytes]
    exact holds_writeAll hapart hmem hne
  · have hmem : (src.geo.unitAt b, unitBytes src b) ∈ syncWrites src cursor pending fresh :=
      List.mem_append_left _ (List.mem_map_of_mem hb)
    have hne : unitBytes src b ≠ [] := by
      rw [← List.length_pos_iff, length_writtenUnit hw hb]
      exact src.geo.unitLen_pos
    exact holds_writeAll hapart hmem hne
  · refine le_trans ?_ length_le_length_writeAll
    cases clearTarget with
    | none => exact Nat.le_refl _
    | some used => exact length_le_length_writeAt _ _ _ _
  · have hcleared : Holds (match clearTarget with
        | some used => writeAt 0 raw (src.geo.hdrAt ((cursor.gen + 1) % 2)) (clearBytes src.geo (cursor.gen + 1) used)
        | none => raw) off xs := by
      cases clearTarget with
      | none => exact h
      | some used =>
        have := hclear used
        exact h.writeAt_of_disjoint 0 (by omega)
    refine hcleared.writeAll fun op hop => ?_
    rcases List.mem_append.mp hop with hop | hop
    · obtain ⟨b, hb, rfl⟩ := List.mem_map.mp hop
      have hub := length_writtenUnit hw hb
      have := hunits b hb
      unfold Apart
      dsimp only
      omega
    · obtain rfl := List.mem_singleton.mp hop
      unfold Apart
      dsimp only
      omega

end Written

/-! ## A committed file -/

/-- A row with its codes packed, so that bits no code uses do not count. -/
def Row.packed (geo : Geo) (r : Row) : Row := { r with codes := packRow geo.bitWidth geo.dim r.codes }

/-- A source that writes `content`, from a unit and from a record alike. -/
def Writes (src : SyncSource) (content : ℕ → Row) : Prop :=
  ∀ v < src.nVectors, (fullRow src v).packed src.geo = content v ∧ (src.row v).packed src.geo = content v

/-- The file holds the commit of `cursor`: it parses to `img`, its header lies in the slot of its generation, and its
superblock is the one a sync of `src` writes. -/
structure Committed (T : Tables) (src : SyncSource) (cursor : SyncCursor) (raw : List UInt8) (img : ParsedImage) :
    Prop where
  parse : parseImage T raw src.kind = .ok img
  geo : img.geo = src.geo
  nVectors : img.nVectors = cursor.nSynced
  gen : img.gen = cursor.gen
  nonce : img.nonce = cursor.nonce
  tqplusShift : img.tqplusShift = src.tqplusShift
  tqplusScale : img.tqplusScale = src.tqplusScale
  scales : ScalesOk img raw
  superblock : Holds raw 0 (superblock src cursor.nonce)
  slot : Holds raw (src.geo.hdrAt (cursor.gen % 2)) (leBytes 8 cursor.gen)
  inside : ∀ h, chooseHeader raw src.geo = some h → ∀ b ∈ h.deltaBlocks, b < oldBlocks cursor
  apart : ∀ h, chooseHeader raw src.geo = some h → ∀ v ∈ img.pendingSlots, v / BLOCK ∉ h.deltaBlocks

section Committed

variable {T : Tables} {src : SyncSource} {cursor : SyncCursor} {pending fresh : Finset ℕ} {raw raw' : List UInt8}
  {img : ParsedImage} {content : ℕ → Row}

/-- A committed file loads as the image it parses to. -/
theorem Committed.load (h : Committed T src cursor raw img) (expectCalibGen : ℕ) :
    ∃ l, loadImage T raw expectCalibGen src.kind = .ok l ∧ Loaded img (img.rows raw) expectCalibGen l := by
  obtain ⟨l, hl, hrun⟩ := loadImage_spec h.parse
  exact ⟨l, (hrun l).mpr ⟨h.scales, rfl⟩, hl⟩

/-- A slot of a whole block that no op names is read from its unit. -/
theorem ParsedImage.rows_of_unit (hv : img.Valid T) {v : ℕ} (hlt : v < img.nVectors / BLOCK * BLOCK)
    (hp : v ∉ img.pendingSlots) : img.rows raw v = unitRows img.geo raw (img.nVectors / BLOCK) v := by
  have hops : lastRec img.flatOps v = none := by
    refine lastRec_eq_none.mpr fun r hr hrv => hp ?_
    obtain ⟨g, hg, hrg⟩ := List.mem_flatMap.mp hr
    rw [hv.pending]
    exact List.mem_flatMap.mpr ⟨g, hg, List.mem_map.mpr ⟨r, hrg, hrv⟩⟩
  have htail : lastRec img.tailRows v = none := by
    rw [lastRec_tailRows, if_neg fun hle => absurd hle.1 (not_le.mpr hlt)]
  rw [ParsedImage.rows, writeRows_apply, lastRec_append, htail, hops]
  rfl

/-- The last record of a list that has one for every slot it names. -/
theorem lastRec_map (slots : List ℕ) (recOf : ℕ → List UInt8) (v : ℕ) :
    lastRec (slots.map fun s => (s, recOf s)) v = if v ∈ slots then some (recOf v) else none := by
  induction slots using List.reverseRecOn with
  | nil => rfl
  | append_singleton slots s ih =>
    rw [List.map_append, List.map_singleton, lastRec_append, lastRec_singleton, ih]
    dsimp only
    by_cases hs : s = v
    · subst hs
      rw [if_pos rfl, if_pos (List.mem_append_right _ List.mem_cons_self)]
      rfl
    · rw [if_neg hs, Option.none_or]
      refine if_congr ?_ rfl rfl
      simp [Ne.symm hs]

/-- The newest header of a file, when its delta verifies, is the one chosen. -/
theorem chooseHeader_of_newest {geo : Geo} {slot : ℕ} {hdr : ParsedHdr} (hs : slot < 2)
    (hp : parseHeaderSlot raw geo slot raw.length = some hdr)
    (hother : ∀ h, parseHeaderSlot raw geo (1 - slot) raw.length = some h → h.gen < hdr.gen)
    (hd : deltaOk raw geo hdr = true) : chooseHeader raw geo = some hdr := by
  have hcases : slot = 0 ∨ slot = 1 := by omega
  rcases hcases with rfl | rfl
  · rw [chooseHeader, hp]
    cases h1 : parseHeaderSlot raw geo 1 raw.length with
    | none => simp [candidates, hd]
    | some h =>
      have := hother h h1
      simp [candidates, hd, Nat.not_lt.mpr this.le]
  · rw [chooseHeader, hp]
    cases h0 : parseHeaderSlot raw geo 0 raw.length with
    | none => simp [candidates, hd]
    | some h =>
      have := hother h h0
      simp [candidates, hd, this]

/-- The header a slot parses to has the generation the slot begins with. -/
theorem gen_of_slot {geo : Geo} {slot gen fileLen : ℕ} {h : ParsedHdr} (hgen : gen < 2 ^ 64)
    (hholds : Holds raw (geo.hdrAt slot) (leBytes 8 gen)) (hp : parseHeaderSlot raw geo slot fileLen = some h) :
    h.gen = gen := by
  rw [parseHeaderSlot, Option.bind_eq_bind, Option.bind_eq_some_iff] at hp
  obtain ⟨bytes, hbytes, hp⟩ := hp
  obtain ⟨_, hf⟩ := parseHeaderAt_eq_some.mp hp
  have hread := hf.gen
  have hlen := length_of_slice? hbytes
  have := eight_le_hdrLen geo
  rw [readLe?, ← (holds_of_slice? hbytes).slice?_add (by omega), Nat.add_zero, hholds.slice? (length_leBytes 8 gen),
    Option.map_some, ofLe_leBytes, Nat.mod_eq_of_lt (hgen.trans_eq (by norm_num))] at hread
  exact (Option.some.inj hread).symm

/-! ## One sync -/

theorem zip_map_self {α β : Type} (f : α → β) (l : List α) : l.zip (l.map f) = l.map fun a => (a, f a) := by
  induction l with
  | nil => rfl
  | cons a l ih => rw [List.map_cons, List.zip_cons_cons, ih, List.map_cons]

/-- The image a synced file parses to. -/
def parsedSync (src : SyncSource) (cursor : SyncCursor) (pending fresh : Finset ℕ) : ParsedImage :=
  ⟨src.geo, cursor.nonce, cursor.gen + 1, src.nVectors, tailBytes src src.nVectors, src.tqplusShift, src.tqplusScale,
    wireGroups src (syncGroups src cursor pending fresh), wireSlots (syncGroups src cursor pending fresh)⟩

/-- A synced file is long enough for the units of the live state. -/
theorem Landed.length_ge (hw : SourceWf T src) (h : Landed src cursor pending fresh raw raw')
    (hold : src.geo.unitAt (oldBlocks cursor) ≤ raw.length) : src.geo.unitAt (newBlocks src) ≤ raw'.length := by
  rcases Nat.lt_or_ge (oldBlocks cursor) (newBlocks src) with hlt | hge
  · -- the last block was appended
    have hmem : newBlocks src - 1 ∈ writtenBlocks src cursor pending fresh := by
      refine List.mem_append_right _ (List.mem_range'_1.mpr ?_)
      omega
    have hin := (h.units _ hmem).le_length
    rw [length_writtenUnit hw hmem, ← src.geo.unitAt_succ, Nat.sub_add_cancel (by omega)] at hin
    exact hin
  · exact (src.geo.unitAt_mono hge).trans (hold.trans h.length_le)

/-- The row a synced file's units give a slot: of a written block the live row, else the row that was there. -/
theorem Landed.unitRows (hw : SourceWf T src) (h : Landed src cursor pending fresh raw raw')
    (hold : src.geo.unitAt (oldBlocks cursor) ≤ raw.length) {v : ℕ} (hv : v < newBlocks src * BLOCK) :
    unitRows src.geo raw' (newBlocks src) v =
      if v / BLOCK ∈ writtenBlocks src cursor pending fresh then fullRow src v
      else unitRows src.geo raw (oldBlocks cursor) v := by
  have hb : v / BLOCK < newBlocks src := Nat.div_lt_of_lt_mul (by rwa [Nat.mul_comm])
  have hl : v % BLOCK < BLOCK := Nat.mod_lt _ (by decide)
  have hdiv : v / BLOCK * BLOCK + v % BLOCK = v := Nat.div_add_mod' _ _
  have hn : newBlocks src * BLOCK ≤ src.nVectors := Nat.div_mul_le_self _ _
  rw [unitRows_of_lt _ _ hv]
  split
  · rename_i hmem
    have hbytes := (slice?_eq_some.mp (h.units _ hmem)).2
    rw [length_writtenUnit hw hmem] at hbytes
    rw [bytesAt, hbytes, unitRow_unitBytes hw.ids (hw.units _ hb) hl (by omega), hdiv]
    exact (if_pos hv).symm
  · rename_i hmem
    have hlt : v / BLOCK < oldBlocks cursor := by
      by_contra hge
      exact hmem (List.mem_append_right _ (List.mem_range'_1.mpr (by omega)))
    have hvold : v < oldBlocks cursor * BLOCK := by
      rw [← hdiv]
      exact mul_add_lt hlt hl
    have hroom : src.geo.unitAt (v / BLOCK) + src.geo.unitLen ≤ raw.length := (src.geo.unitAt_add_le hlt).trans hold
    have hlen := length_bytesAt hroom
    -- the unit of another block, and behind both headers
    have hkept := h.frame _ _ (holds_of_slice? (slice?_of_le hroom)) (Or.inr
      (src.geo.hdrAt_add_le (Nat.mod_lt _ (by decide)) _)) fun b hbw => by
        rw [← bytesAt, hlen]
        rcases Nat.lt_or_gt_of_ne (fun heq => hmem (heq ▸ hbw) : b ≠ v / BLOCK) with hlt | hgt
        · exact Or.inr (src.geo.unitAt_add_le hlt)
        · exact Or.inl (src.geo.unitAt_add_le hgt)
    rw [← bytesAt] at hkept
    have hbytes := (slice?_eq_some.mp hkept).2
    rw [hlen, ← bytesAt] at hbytes
    rw [unitRows_of_lt _ _ hvold, hbytes]

theorem Committed.room (h : Committed T src cursor raw img) : src.geo.unitAt (oldBlocks cursor) ≤ raw.length := by
  have := (parseImage_ok h.parse).2.2
  rwa [h.geo, h.nVectors] at this

/-- A sync leaves the superblock. -/
theorem Landed.superblock (hw : SourceWf T src) (h : Landed src cursor pending fresh raw raw')
    (hcm : Committed T src cursor raw img) : Holds raw' 0 (IoV7.superblock src cursor.nonce) := by
  have hlen := @length_superblock src cursor.nonce hw.ok.shaped
  have hsb : src.geo.sbLen ≤ src.geo.hdrAt ((cursor.gen + 1) % 2) := Nat.le_add_right _ _
  refine h.frame _ _ hcm.superblock (Or.inl (by omega)) fun b _ => Or.inl ?_
  have := (sbLen_le_unitAt src.geo).trans (src.geo.unitAt_mono (Nat.zero_le b))
  omega

/-- A synced file parses to the header that was just committed, whose delta is the units the sync wrote. -/
theorem Landed.parse (hw : SourceWf T src) (hc : Committable src cursor pending)
    (hle : (carried (liveBlocks src cursor) pending fresh).length ≤ MAX_OPS)
    (h : Landed src cursor pending fresh raw raw') (hcm : Committed T src cursor raw img) :
    parseImage T raw' src.kind = .ok (parsedSync src cursor pending fresh) ∧
      ∀ h, chooseHeader raw' src.geo = some h → h.deltaBlocks = writtenBlocks src cursor pending fresh := by
  have hin : HeaderInput src (cursor.gen + 1) src.nVectors (syncGroups src cursor pending fresh)
      (syncDelta src cursor pending fresh) := syncHeader_input hw hc hle
  have hfits := @syncHeader_fits src cursor pending fresh hc hle
  have hnarrow := hfits.narrow.2
  have hslot : (cursor.gen + 1) % 2 < 2 := Nat.mod_lt _ (by decide)
  have hlen := h.length_ge hw hcm.room
  have hhdr := src.geo.hdrAt_add_le hslot (newBlocks src)
  obtain ⟨hdr, hparse, hsaid⟩ := parseHeaderSlot_of_holds h.header (by omega) (hin.fits hfits.groups_le) hc.gen_lt rfl
    hw.n_lt hlen (hin.opsFit hfits.groups_le) hin.tailFits hin.mat_le
  -- the delta names the blocks this sync wrote, and they are all there
  have hblocks : hdr.deltaBlocks = writtenBlocks src cursor pending fresh := by
    have hmat := congrArg Delta.mat hnarrow
    have happ := congrArg Delta.app hnarrow
    rw [ParsedHdr.deltaBlocks, hsaid.deltaMat_eq, hsaid.deltaApp_eq]
    exact congrArg₂ (fun m a => m ++ List.range' a.1 (a.2 - a.1)) hmat happ
  have hdelta : deltaOk raw' src.geo hdr = true := by
    rw [deltaOk_iff, hblocks]
    refine ⟨(writtenBlocks src cursor pending fresh).map (unitBytes src), ?_, ?_⟩
    · rw [mapM_eq_some, List.forall₂_map_right_iff, List.forall₂_same]
      intro b hb
      exact (h.units b hb).slice? (length_writtenUnit hw hb)
    · rw [zip_map_self, hsaid.gen_eq, hsaid.deltaCrc_eq]
      rfl
  -- the other slot holds the commit before
  have hother : 1 - (cursor.gen + 1) % 2 = cursor.gen % 2 := by omega
  have hkept := h.frame _ _ hcm.slot (by
    have := src.geo.slots_apart (Nat.mod_lt cursor.gen (by decide)) hslot (by omega)
    have := eight_le_hdrLen src.geo
    rw [length_leBytes]
    omega) fun b _ => by
      have := src.geo.hdrAt_add_le (Nat.mod_lt cursor.gen (by decide)) b
      have := eight_le_hdrLen src.geo
      rw [length_leBytes]
      omega
  have hchoose : chooseHeader raw' src.geo = some hdr := by
    refine chooseHeader_of_newest hslot hparse (fun old hold => ?_) hdelta
    rw [hother] at hold
    rw [gen_of_slot (by have := hc.gen_lt; omega) hkept hold, hsaid.gen_eq]
    exact Nat.lt_succ_self _
  have hsb := h.superblock hw hcm
  refine ⟨parseImage_of_header (parseSuperblock_of_holds hw.ok hc.nonce_lt hsb
    (by rw [← src.geo.unitAt_zero]; exact (src.geo.unitAt_mono (Nat.zero_le _)).trans hlen)) rfl hchoose hsaid
    hin.tailFits h.header hw.dim_zero, fun hdr' hdr'_eq => ?_⟩
  obtain rfl := Option.some.inj (hchoose.symm.trans hdr'_eq)
  exact hblocks

theorem flatOps_parsedSync (hw : SourceWf T src) (hc : Committable src cursor pending)
    (hle : (carried (liveBlocks src cursor) pending fresh).length ≤ MAX_OPS) :
    (parsedSync src cursor pending fresh).flatOps =
      (carried (liveBlocks src cursor) pending fresh).map fun s => (s, recBytes src s) := by
  have hgroups := (@syncHeader_input T src cursor pending fresh hw hc hle).wireGroups_eq (syncHeader_fits hc hle)
  rw [← (grouped_foldl (carried (liveBlocks src cursor) pending fresh)).slots_eq, List.map_flatMap]
  show (wireGroups src (syncGroups src cursor pending fresh)).flatMap Prod.snd = _
  rw [hgroups, List.flatMap_map]
  rfl

/-- The row a synced file gives a slot: the live row from an op or the tail, else the unit's. -/
theorem rows_parsedSync (hw : SourceWf T src) (hc : Committable src cursor pending)
    (hle : (carried (liveBlocks src cursor) pending fresh).length ≤ MAX_OPS) {v : ℕ} (hv : v < src.nVectors) :
    (parsedSync src cursor pending fresh).rows raw' v =
      if newBlocks src * BLOCK ≤ v ∨ v ∈ carried (liveBlocks src cursor) pending fresh then src.row v
      else unitRows src.geo raw' (newBlocks src) v := by
  have hrec : recRow src.geo (recBytes src v) = src.row v := recRow_recBytes hw.ids (hw.rows v hv)
  rw [ParsedImage.rows, writeRows_apply, lastRec_append, lastRec_tailRows, flatOps_parsedSync hw hc hle, lastRec_map]
  have hn : (parsedSync src cursor pending fresh).nVectors / BLOCK * BLOCK = newBlocks src * BLOCK := rfl
  rw [hn]
  by_cases htail : newBlocks src * BLOCK ≤ v
  · have hk : v - newBlocks src * BLOCK < src.nVectors % BLOCK := by
      have : newBlocks src * BLOCK + src.nVectors % BLOCK = src.nVectors := Nat.div_add_mod' _ _
      omega
    have htb : rowAt (tailBytes src src.nVectors) src.geo.recLen (v - newBlocks src * BLOCK) =
        recBytes src (newBlocks src * BLOCK + (v - newBlocks src * BLOCK)) := rowAt_tailBytes hw hk
    rw [Nat.add_sub_cancel' htail] at htb
    rw [if_pos ⟨htail, hv⟩, if_pos (Or.inl htail)]
    exact (congrArg (recRow src.geo) htb).trans hrec
  · rw [if_neg fun h => htail h.1, Option.none_or]
    by_cases hcar : v ∈ carried (liveBlocks src cursor) pending fresh
    · rw [if_pos hcar, if_pos (Or.inr hcar)]
      exact hrec
    · rw [if_neg hcar, if_neg (not_or.mpr ⟨htail, hcar⟩)]
      rfl

/-- The block of a carried slot is not rewritten. -/
theorem unwritten_of_carried {v : ℕ} (hv : v ∈ carried (liveBlocks src cursor) pending fresh) :
    v / BLOCK ∉ writtenBlocks src cursor pending fresh := by
  obtain ⟨-, hlt, hfresh⟩ := mem_carried.mp hv
  intro hb
  rcases List.mem_append.mp hb with hmat | happ
  · exact (mem_materialize.mp hmat).2 hfresh
  · have hlive : v / BLOCK < liveBlocks src cursor := Nat.div_lt_of_lt_mul (by rwa [Nat.mul_comm])
    have hle : liveBlocks src cursor ≤ oldBlocks cursor := Nat.min_le_left _ _
    have := (List.mem_range'_1.mp happ).1
    omega

/-- A slot left to its old unit did not change. -/
theorem clean_of_unwritten {v : ℕ} (hv : v < newBlocks src * BLOCK)
    (hw : v / BLOCK ∉ writtenBlocks src cursor pending fresh) (hc : v ∉ carried (liveBlocks src cursor) pending fresh) :
    v < oldBlocks cursor * BLOCK ∧ v ∉ pending ∪ fresh := by
  have hb : v / BLOCK < newBlocks src := Nat.div_lt_of_lt_mul (by rwa [Nat.mul_comm])
  have hold : v / BLOCK < oldBlocks cursor := by
    by_contra hge
    exact hw (List.mem_append_right _ (List.mem_range'_1.mpr (by omega)))
  have hlive : v < liveBlocks src cursor * BLOCK := by
    rw [← Nat.div_add_mod' v BLOCK]
    exact mul_add_lt (lt_min hold hb) (Nat.mod_lt _ (by decide))
  refine ⟨?_, fun hd => ?_⟩
  · exact hlive.trans_le (Nat.mul_le_mul_right _ (Nat.min_le_left _ _))
  · rcases carried_or_materialized hlive hd with hcar | hmat
    · exact hc hcar
    · exact hw (List.mem_append_left _ hmat)

/-- A synced file loads as the live rows, when the slots outside the dirty sets hold their live rows already. -/
theorem Landed.rows (hw : SourceWf T src) (hc : Committable src cursor pending)
    (hle : (carried (liveBlocks src cursor) pending fresh).length ≤ MAX_OPS)
    (h : Landed src cursor pending fresh raw raw') (hcm : Committed T src cursor raw img)
    (hpending : ∀ v ∈ img.pendingSlots, v ∈ pending) (hcontent : Writes src content)
    (hclean : ∀ v < oldBlocks cursor * BLOCK, v ∉ pending ∪ fresh → v < src.nVectors →
      (img.rows raw v).packed src.geo = content v) {v : ℕ} (hv : v < src.nVectors) :
    ((parsedSync src cursor pending fresh).rows raw' v).packed src.geo = content v := by
  obtain ⟨hfull, hrow⟩ := hcontent v hv
  rw [rows_parsedSync hw hc hle hv]
  split
  · exact hrow
  · rename_i hnot
    obtain ⟨hlt, hcar⟩ := not_or.mp hnot
    rw [h.unitRows hw hcm.room (not_le.mp hlt)]
    split
    · exact hfull
    · rename_i hwr
      obtain ⟨hold, hd⟩ := clean_of_unwritten (not_le.mp hlt) hwr hcar
      have hblocks : img.nVectors / BLOCK = oldBlocks cursor := congrArg (· / BLOCK) hcm.nVectors
      have hread : img.rows raw v = IoV7.unitRows img.geo raw (img.nVectors / BLOCK) v :=
        ParsedImage.rows_of_unit (parseImage_ok hcm.parse).1 (by rwa [hblocks])
          fun hp => hd (Finset.mem_union_left _ (hpending v hp))
      rw [hcm.geo, hblocks] at hread
      rw [← hread]
      exact hclean v hold hd hv

/-- Every scale of a synced file is one the loader takes. -/
theorem Landed.scalesOk (hw : SourceWf T src) (hc : Committable src cursor pending)
    (hle : (carried (liveBlocks src cursor) pending fresh).length ≤ MAX_OPS)
    (h : Landed src cursor pending fresh raw raw') (hcm : Committed T src cursor raw img)
    (hs : ∀ v < src.nVectors, validScale (entry src.scales v) = true) :
    ScalesOk (parsedSync src cursor pending fresh) raw' := by
  have hnew : newBlocks src * BLOCK ≤ src.nVectors := Nat.div_mul_le_self _ _
  have hrec : ∀ v < src.nVectors, validScale (recRow src.geo (recBytes src v)).scale = true := by
    intro v hv
    rw [recRow_recBytes hw.ids (hw.rows v hv)]
    exact hs v hv
  refine ⟨fun v hv => ?_, fun r hr => ?_⟩
  · have hlt : v < newBlocks src * BLOCK := hv
    show validScale (IoV7.unitRows src.geo raw' (newBlocks src) v).scale = true
    rw [h.unitRows hw hcm.room hlt]
    split
    · have hlt' : v < src.nVectors / BLOCK * BLOCK := hlt
      rw [fullRow, if_pos hlt']
      exact hs v (by omega)
    · rename_i hwr
      have hold : v < oldBlocks cursor * BLOCK := by
        rw [← Nat.div_add_mod' v BLOCK]
        refine mul_add_lt ?_ (Nat.mod_lt _ (by decide))
        by_contra hge
        have hb : v / BLOCK < newBlocks src := Nat.div_lt_of_lt_mul (by rwa [Nat.mul_comm])
        exact hwr (List.mem_append_right _ (List.mem_range'_1.mpr (by omega)))
      have hblocks : img.nVectors / BLOCK = oldBlocks cursor := congrArg (· / BLOCK) hcm.nVectors
      have hunit := hcm.scales.units v (by rwa [hblocks])
      rwa [hcm.geo, hblocks] at hunit
  · rw [flatOps_parsedSync hw hc hle] at hr
    rcases List.mem_append.mp hr with hr | hr
    · obtain ⟨v, hv, rfl⟩ := List.mem_map.mp hr
      have hb := carried_block_lt hv
      refine hrec v (lt_of_lt_of_le ?_ hnew)
      rw [← Nat.div_add_mod' v BLOCK]
      exact mul_add_lt hb (Nat.mod_lt _ (by decide))
    · obtain ⟨k, hk, rfl⟩ := List.mem_map.mp hr
      have hk : k < src.nVectors % BLOCK := List.mem_range.mp hk
      have hmod := Nat.div_add_mod' src.nVectors BLOCK
      have htb := rowAt_tailBytes hw hk
      exact (congrArg (fun r => validScale (recRow src.geo r).scale) htb).trans (hrec _ (by omega))

theorem FullImage.deltaBlocks {gen nonce : ℕ} (hw : SourceWf T src) (h : FullImage src gen nonce raw)
    (hgen : gen < 2 ^ 64) (heven : gen % 2 = 0) {hdr : ParsedHdr} (hc : chooseHeader raw src.geo = some hdr) :
    hdr.deltaBlocks = [] := by
  have hlen : src.geo.hdrAt 2 ≤ raw.length := h.length_eq ▸ src.geo.hdrAt_two_le_fullLen _
  have h1 := src.geo.hdrAt_one
  have h2 := src.geo.hdrAt_two
  obtain ⟨hdr', hparse, hsaid⟩ := parseHeaderSlot_of_holds h.header (by omega) (length_fullHeader_le hw.tailFits)
    hgen heven hw.n_lt h.length_eq.ge (opsFit_nil src _) hw.tailFits (Nat.zero_le _)
  have hchoose := chooseHeader_of_only hparse (parseHeaderSlot_zeros h.zeros) (deltaOk_empty hsaid)
  obtain rfl := Option.some.inj (hchoose.symm.trans hc)
  rw [ParsedHdr.deltaBlocks, hsaid.deltaMat_eq, hsaid.deltaApp_eq]
  rfl

/-- A full image is committed at the generation it starts from, with no slot pending. -/
theorem committed_writeImage (hw : SourceWf T src)
    (hs : ∀ v < src.nVectors, validScale (entry src.scales v) = true) {nonce : ℕ} (hnonce : nonce < 2 ^ 64)
    (calibGen : ℕ) :
    Committed T src ⟨0, src.nVectors, calibGen, nonce⟩ (writeImage src 0 nonce) (parsedFull src 0 nonce) := by
  have h := fullImage_writeImage hw 0 nonce
  have hheader := h.header
  simp only [fullHeader, headerSlot, headerBody, holds_append] at hheader
  refine ⟨h.parse hw (by decide) rfl hnonce, rfl, rfl, rfl, rfl, rfl, rfl, h.scalesOk hw hs, h.superblock,
    hheader.1.1.1.1.1.1.1.1.1.1, fun hdr hc b hb => ?_, fun _ _ v hv => absurd hv List.not_mem_nil⟩
  rw [h.deltaBlocks hw (by decide) rfl hc] at hb
  cases hb

theorem rows_writeImage (hw : SourceWf T src) (hcontent : Writes src content) (nonce : ℕ) {v : ℕ}
    (hv : v < src.nVectors) :
    ((parsedFull src 0 nonce).rows (writeImage src 0 nonce) v).packed src.geo = content v := by
  rw [(fullImage_writeImage hw 0 nonce).rows hw hv]
  exact (hcontent v hv).1

/-- The delta of a committed file lies inside the units that the file declares. -/
theorem Committed.declared (hT : T.Leveled) (h : Committed T src cursor raw img) : DeltaDeclared raw := by
  intro geo hgeo hdr hc b hb
  have hparse := h.parse
  simp only [parseImage, bind_eq_ok, reject_eq_ok, orElseError_eq_ok, pure, Except.pure, Except.ok.injEq] at hparse
  obtain ⟨sb, hsb, hdr', hchoose, _, hdim, tail, htail, ops, hops, rfl⟩ := hparse
  have hsame : sb.geo = geo := (sniffed hgeo).geo_eq hT hsb
  have hsrc : geo = src.geo := hsame.symm.trans h.geo
  subst hsrc
  rw [hsame] at hchoose
  obtain rfl := Option.some.inj (hchoose.symm.trans hc)
  have hn : hdr'.n = cursor.nSynced := h.nVectors
  have hb := h.inside _ hc b hb
  have hunit : src.geo.unitAt b + src.geo.unitLen ≤ src.geo.unitAt (oldBlocks cursor) := by
    have := src.geo.unitAt_mono (Nat.succ_le_of_lt hb)
    rw [Geo.unitAt_eq, Geo.unitAt_eq, Nat.mul_succ] at *
    omega
  rcases wantLen_cases raw with hw | ⟨geo', n0, n1, -, hgeo', h0, h1, hlen, -⟩
  · rw [hw]
    exact hunit.trans h.room
  · obtain rfl := Option.some.inj (hgeo'.symm.trans hgeo)
    obtain ⟨-, slot, hslot, hp⟩ := chooseHeader_ok hc
    have hrows := slotRows_of_parse hp
    have hle : hdr'.n ≤ max n0 n1 := by
      have hcases : slot = 0 ∨ slot = 1 := by omega
      rcases hcases with rfl | rfl
      · exact (Option.some.inj (hrows.symm.trans h0)).le.trans (Nat.le_max_left _ _)
      · exact (Option.some.inj (hrows.symm.trans h1)).le.trans (Nat.le_max_right _ _)
    refine (hunit.trans (src.geo.unitAt_mono ?_)).trans hlen
    rw [oldBlocks, ← hn]
    exact Nat.div_le_div_right hle

/-- After any planned sync, with or without the wipe of a stale header, the file holds the next commit: it parses to
the live rows, and only the slots the plan carried are pending. -/
theorem sync_commits (hw : SourceWf T src) (hc : Committable src cursor pending)
    (hs : ∀ v < src.nVectors, validScale (entry src.scales v) = true) (hcontent : Writes src content)
    (hcm : Committed T src cursor raw img) (hpending : ∀ v ∈ img.pendingSlots, v ∈ pending)
    (hclean : ∀ v < oldBlocks cursor * BLOCK, v ∉ pending ∪ fresh → v < src.nVectors →
      (img.rows raw v).packed src.geo = content v) {clearTarget : Option ℕ} {plan : SyncPlan}
    (hplan : planIncremental src cursor pending fresh clearTarget = some plan) :
    ∃ img', Committed T src plan.newCursor (runSync raw plan) img' ∧ img'.pendingSlots = plan.carried ∧
      plan.carried.length ≤ MAX_OPS ∧ plan.newCursor.nSynced = src.nVectors ∧
      ∀ v < src.nVectors, (img'.rows (runSync raw plan) v).packed src.geo = content v := by
  obtain ⟨hle, hcarried, hcursor, -⟩ := planIncremental_writes hw hplan raw
  have h := @landed T src cursor pending fresh raw hw hc _ _ hplan
  have hfits := @syncHeader_fits src cursor pending fresh hc hle
  have hsb := h.superblock hw hcm
  have hheader := h.header
  simp only [syncHeader, headerSlot, headerBody, holds_append] at hheader
  have hgen := hheader.1.1.1.1.1.1.1.1.1.1
  rw [hcarried, hcursor]
  obtain ⟨hparse, hdelta⟩ := h.parse hw hc hle hcm
  have hslots : (parsedSync src cursor pending fresh).pendingSlots = carried (liveBlocks src cursor) pending fresh :=
    (grouped_foldl (carried (liveBlocks src cursor) pending fresh)).wireSlots hfits.ops
  refine ⟨parsedSync src cursor pending fresh, ⟨hparse, rfl, rfl, rfl, rfl, rfl, rfl, h.scalesOk hw hc hle hcm hs, hsb,
    hgen, fun hdr hdr_eq b hb => lt_newBlocks (hdelta hdr hdr_eq ▸ hb), fun hdr hdr_eq v hv hb => ?_⟩, hslots, hle, rfl,
    fun v hv => h.rows hw hc hle hcm hpending hcontent hclean hv⟩
  rw [hslots] at hv
  rw [hdelta hdr hdr_eq] at hb
  exact unwritten_of_carried hv hb

/-- A sync is planned in place while a header has room for the changed slots. -/
theorem planIncremental_of_card (h : (pending ∪ fresh).card ≤ MAX_OPS) (clearTarget : Option ℕ) :
    ∃ plan, planIncremental src cursor pending fresh clearTarget = some plan := by
  have hle := (@length_carried_le pending fresh (liveBlocks src cursor)).trans h
  unfold planIncremental
  dsimp only
  rw [if_neg (Nat.not_lt.mpr hle)]
  exact ⟨_, rfl⟩

/-- After any planned sync the file loads with the live rows, scales and ids, bound to the commit it holds. -/
theorem sync_loads (hw : SourceWf T src) (hc : Committable src cursor pending)
    (hs : ∀ v < src.nVectors, validScale (entry src.scales v) = true) (hcontent : Writes src content)
    (hcm : Committed T src cursor raw img) (hpending : ∀ v ∈ img.pendingSlots, v ∈ pending)
    (hclean : ∀ v < oldBlocks cursor * BLOCK, v ∉ pending ∪ fresh → v < src.nVectors →
      (img.rows raw v).packed src.geo = content v) {clearTarget : Option ℕ} {plan : SyncPlan}
    (hplan : planIncremental src cursor pending fresh clearTarget = some plan) (calibGen : ℕ) :
    ∃ l img', loadImage T (runSync raw plan) calibGen src.kind = .ok l ∧
      Loaded img' (img'.rows (runSync raw plan)) calibGen l ∧
      (∀ v < src.nVectors, (img'.rows (runSync raw plan) v).packed src.geo = content v) ∧
      l.nVectors = src.nVectors ∧ l.scales = ((List.range src.nVectors).map fun v => (content v).scale) ∧
      l.ids = (if src.kind = 1 then (List.range src.nVectors).map fun v => (content v).id else []) ∧
      l.pendingSlots = plan.carried ∧ l.cursor = { plan.newCursor with calibGen := calibGen } := by
  obtain ⟨img', hcm', hcarried, -, hn, hrows⟩ := sync_commits hw hc hs hcontent hcm hpending hclean hplan
  obtain ⟨l, hl, hL⟩ := hcm'.load calibGen
  have hnv : img'.nVectors = src.nVectors := hcm'.nVectors.trans hn
  refine ⟨l, img', hl, hL, hrows, hL.nVectors.trans hnv, ?_, ?_, hL.pendingSlots.trans hcarried, ?_⟩
  · rw [hL.scales, hnv]
    refine List.map_congr_left fun v hv => ?_
    rw [← hrows v (List.mem_range.mp hv)]
    rfl
  · rw [hL.ids, hcm'.geo, hnv]
    refine if_congr Iff.rfl (List.map_congr_left fun v hv => ?_) rfl
    rw [← hrows v (List.mem_range.mp hv)]
    rfl
  · rw [hL.cursor, hcm'.gen, hcm'.nVectors, hcm'.nonce]

/-- Two changed slots of a file of two blocks. -/
theorem sync_loads_two : ∃ plan l, planIncremental (blankSource 64) ⟨0, 64, 0, 7⟩ ∅ {3, 40} none = some plan ∧
    loadImage levelTables (runSync (writeImage (blankSource 64) 0 7) plan) 0 0 = .ok l ∧ l.nVectors = 64 := by
  have hw : SourceWf levelTables (blankSource 64) := blankSource_levelWf (by decide)
  have hs : ∀ v < (blankSource 64).nVectors, validScale (entry (blankSource 64).scales v) = true := by
    decide +kernel
  have hcontent : Writes (blankSource 64) fun v => ((blankSource 64).row v).packed (blankSource 64).geo := by
    unfold Writes
    decide +kernel
  obtain ⟨plan, hplan⟩ :=
    @planIncremental_of_card (blankSource 64) ⟨0, 64, 0, 7⟩ ∅ {3, 40} (by decide) none
  obtain ⟨l, -, hl, -, -, hn, -⟩ := sync_loads hw ⟨by decide, by decide, by decide, by decide, by decide⟩ hs hcontent
    (committed_writeImage hw hs (by decide) 0) (fun v hv => by cases hv)
    (fun v _ _ hv => rows_writeImage hw hcontent 7 hv) hplan 0
  exact ⟨plan, l, hplan, hl, hn⟩

end Committed

end Turbovec.IoV7
