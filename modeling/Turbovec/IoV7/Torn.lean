import Turbovec.IoV7.Sync
import Turbovec.IoV7.CursorState

/-!
# Torn syncs

A file between two commits: some of the writes a sync planned have landed, in any order, and the others have not, or in
part. A unit that is rewritten holds rows of the commit before, and the delta of that commit names none of the rewritten
units; so as long as the new header is not adopted, the file loads as it did before the sync.
-/

namespace Turbovec.IoV7

open LittleEndian Slice Grid Pack

/-! ## Header bytes -/

section Parse

variable {bytes raw raw' : List UInt8} {at_ b opSize nBlocks k p q : ℕ} {geo : Geo} {slot : ℕ} {hdr : ParsedHdr}

theorem parseOps_ge {ops : List (ℕ × ℕ)} (h : parseOps bytes at_ b opSize k p = some (ops, q)) :
    ∀ op ∈ ops, at_ ≤ op.2 := by
  induction k generalizing p ops with
  | zero =>
    cases h
    exact fun _ hop => absurd hop List.not_mem_nil
  | succ k ih =>
    obtain ⟨lane, rest, -, -, hrest, rfl⟩ := parseOps_succ_eq_some.mp h
    intro op hop
    rcases List.mem_cons.mp hop with rfl | hop
    · exact Nat.le_succ_of_le (Nat.le_add_right at_ p)
    · exact ih hrest op hop

theorem parseGroups_ge {groups : List OpGroup} (h : parseGroups bytes at_ opSize nBlocks k p = some (groups, q)) :
    ∀ g ∈ groups, ∀ op ∈ g.2, at_ ≤ op.2 := by
  induction k generalizing p groups with
  | zero =>
    cases h
    exact fun _ hg => absurd hg List.not_mem_nil
  | succ k ih =>
    obtain ⟨b, _, ops, r, rest, -, -, -, hops, hrest, rfl⟩ := parseGroups_succ_eq_some.mp h
    intro g hg
    rcases List.mem_cons.mp hg with rfl | hg
    · exact parseOps_ge hops
    · exact ih hrest g hg

/-- What a header names lies behind the start of its slot. -/
theorem parseHeaderSlot_ge {fileLen : ℕ} (hp : parseHeaderSlot raw geo slot fileLen = some hdr) :
    geo.hdrAt slot ≤ hdr.tailAt ∧ ∀ g ∈ hdr.groups, ∀ op ∈ g.2, geo.hdrAt slot ≤ op.2 := by
  rw [parseHeaderSlot, Option.bind_eq_bind, Option.bind_eq_some_iff] at hp
  obtain ⟨bytes, -, hp⟩ := hp
  obtain ⟨_, hf⟩ := parseHeaderAt_eq_some.mp hp
  refine ⟨?_, parseGroups_ge hf.groups⟩
  rw [hf.tailAt]
  exact Nat.le_add_right _ _

/-- A header parses as well in a longer file with the same slot. -/
theorem parseHeaderSlot_congr
    (hbytes : slice? raw' (geo.hdrAt slot) geo.hdrLen = slice? raw (geo.hdrAt slot) geo.hdrLen)
    (hle : raw.length ≤ raw'.length) (hp : parseHeaderSlot raw geo slot raw.length = some hdr) :
    parseHeaderSlot raw' geo slot raw'.length = some hdr := by
  rw [parseHeaderSlot, Option.bind_eq_bind, Option.bind_eq_some_iff] at hp ⊢
  obtain ⟨bytes, hb, hp⟩ := hp
  obtain ⟨pMat, hf⟩ := parseHeaderAt_eq_some.mp hp
  exact ⟨bytes, hbytes.trans hb, parseHeaderAt_eq_some.mpr ⟨pMat, { hf with fits := hf.fits.trans hle }⟩⟩

/-- The header of one slot is chosen when it verifies and the other is older or does not. -/
theorem chooseHeader_of_kept (hs : slot < 2) (hp : parseHeaderSlot raw geo slot raw.length = some hdr)
    (hother : ∀ h, parseHeaderSlot raw geo (1 - slot) raw.length = some h →
      h.gen < hdr.gen ∨ deltaOk raw geo h = false) (hd : deltaOk raw geo hdr = true) :
    chooseHeader raw geo = some hdr := by
  have hcases : slot = 0 ∨ slot = 1 := by omega
  rcases hcases with rfl | rfl
  · rw [chooseHeader, hp]
    cases h1 : parseHeaderSlot raw geo 1 raw.length with
    | none => simp [candidates, hd]
    | some h =>
      rcases hother h h1 with hlt | hbad
      · simp [candidates, hd, Nat.not_lt.mpr hlt.le]
      · by_cases hlt : hdr.gen < h.gen
        · simp [candidates, hd, hbad, hlt]
        · simp [candidates, hd, hlt]
  · rw [chooseHeader, hp]
    cases h0 : parseHeaderSlot raw geo 0 raw.length with
    | none => simp [candidates, hd]
    | some h =>
      rcases hother h h0 with hlt | hbad
      · simp [candidates, hd, hlt]
      · by_cases hlt : h.gen < hdr.gen
        · simp [candidates, hd, hlt]
        · simp [candidates, hd, hbad, hlt]

theorem mapM_congr_mem {γ δ : Type} {f g : γ → Option δ} {l : List γ} (h : ∀ x ∈ l, f x = g x) :
    l.mapM f = l.mapM g := by
  induction l with
  | nil => rfl
  | cons x l ih =>
    rw [List.mapM_cons, List.mapM_cons, h x List.mem_cons_self, ih fun y hy => h y (List.mem_cons_of_mem x hy)]

theorem ownOps_congr {recLen : ℕ} {groups : List OpGroup}
    (h : ∀ g ∈ groups, ∀ op ∈ g.2, slice? raw' op.2 recLen = slice? raw op.2 recLen) :
    ownOps raw' recLen groups = ownOps raw recLen groups := by
  refine mapM_congr_mem fun g hg => ?_
  have hops := mapM_congr_mem (f := fun op : ℕ × ℕ => do
    let payload ← slice? raw' op.2 recLen
    return (op.1, payload)) (g := fun op : ℕ × ℕ => do
    let payload ← slice? raw op.2 recLen
    return (op.1, payload)) fun op hop => by rw [h g hg op hop]
  rw [hops]

end Parse

/-! ## The file of a sync that was cut -/

/-- A file in which some of a sync's writes have landed. -/
structure Torn (src : SyncSource) (cursor : SyncCursor) (pending fresh : Finset ℕ) (raw raw' : List UInt8) : Prop where
  length_le : raw.length ≤ raw'.length
  /-- the superblock and the slot of the last commit are as they were -/
  front : ∀ off len, off + len ≤ src.geo.unitAt 0 →
    (off + len ≤ src.geo.hdrAt ((cursor.gen + 1) % 2) ∨
      src.geo.hdrAt ((cursor.gen + 1) % 2) + src.geo.hdrLen ≤ off) → slice? raw' off len = slice? raw off len
  /-- a unit is as it was, or rewritten -/
  unit : ∀ b < oldBlocks cursor, bytesAt raw' (src.geo.unitAt b) src.geo.unitLen =
      bytesAt raw (src.geo.unitAt b) src.geo.unitLen ∨
    b ∈ writtenBlocks src cursor pending fresh ∧
      bytesAt raw' (src.geo.unitAt b) src.geo.unitLen = unitBytes src b

section Torn

variable {T : Tables} {src : SyncSource} {cursor : SyncCursor} {pending fresh : Finset ℕ} {raw raw' : List UInt8}
  {img : ParsedImage} {content : ℕ → Row} {hdr : ParsedHdr}

/-- A write of a sync: inside the slot it commits to, a unit, or anything past the units of the last commit. -/
def SyncWrite (src : SyncSource) (cursor : SyncCursor) (pending fresh : Finset ℕ) (op : ℕ × List UInt8) : Prop :=
  op.1 = src.geo.hdrAt ((cursor.gen + 1) % 2) ∧ op.2.length ≤ src.geo.hdrLen ∨
    (∃ b ∈ writtenBlocks src cursor pending fresh, op = (src.geo.unitAt b, unitBytes src b)) ∨
      src.geo.unitAt (oldBlocks cursor) ≤ op.1

/-- What landed of a planned write: the whole of it, or any bytes in its place where that is not a unit of the last
commit. -/
def SyncPlan.Lands (plan : SyncPlan) (geo : Geo) (cursor : SyncCursor) (op : ℕ × List UInt8) : Prop :=
  ∃ whole ∈ plan.batches.flatten, op = whole ∨ op.1 = whole.1 ∧ op.2.length ≤ whole.2.length ∧
    (whole.1 < geo.unitAt 0 ∨ geo.unitAt (oldBlocks cursor) ≤ whole.1)

/-- The writes of a plan. -/
theorem syncWrite_of_plan (hw : SourceWf T src) (hc : Committable src cursor pending) {clearTarget : Option ℕ}
    {plan : SyncPlan} (hplan : planIncremental src cursor pending fresh clearTarget = some plan) :
    ∀ op ∈ plan.batches.flatten, SyncWrite src cursor pending fresh op := by
  obtain ⟨hle, -⟩ := planIncremental_writes hw hplan []
  have hdigest : planDigest src (cursor.gen + 1) (writtenBlocks src cursor pending fresh) =
      deltaDigest (cursor.gen + 1) ((writtenBlocks src cursor pending fresh).map fun b => (b, unitBytes src b)) :=
    planDigest_eq fun b hb => length_writtenUnit hw hb
  have hbatch : ∀ op ∈ syncWrites src cursor pending fresh, SyncWrite src cursor pending fresh op := by
    intro op hop
    rcases List.mem_append.mp hop with hop | hop
    · obtain ⟨b, hb, rfl⟩ := List.mem_map.mp hop
      exact Or.inr (Or.inl ⟨b, hb, rfl⟩)
    · obtain rfl := List.mem_singleton.mp hop
      exact Or.inl ⟨rfl, length_syncHeader_le hw hc hle⟩
  unfold planIncremental at hplan
  dsimp only at hplan
  split at hplan
  · cases hplan
  · cases hplan
    rw [hdigest]
    cases clearTarget with
    | none =>
      intro op hop
      rw [List.flatten_singleton] at hop
      exact hbatch op hop
    | some used =>
      intro op hop
      rw [List.flatten_cons, List.flatten_singleton, List.singleton_append] at hop
      rcases List.mem_cons.mp hop with rfl | hop
      · exact Or.inl ⟨rfl, length_clearBytes_le _ _ _⟩
      · exact hbatch op hop

/-- What lands of a planned write is a write of the sync. -/
theorem SyncPlan.Lands.syncWrite {plan : SyncPlan} {op : ℕ × List UInt8} (h : plan.Lands src.geo cursor op)
    (hplan : ∀ op ∈ plan.batches.flatten, SyncWrite src cursor pending fresh op) :
    SyncWrite src cursor pending fresh op := by
  obtain ⟨whole, hmem, rfl | ⟨hat, hle, hplace⟩⟩ := h
  · exact hplan _ hmem
  · rcases hplan whole hmem with ⟨hslot, hlen⟩ | ⟨b, -, rfl⟩ | hpast
    · exact Or.inl ⟨hat.trans hslot, hle.trans hlen⟩
    · -- a unit that may land in part is one the sync appends
      have := src.geo.unitAt_mono (Nat.zero_le b)
      refine Or.inr (Or.inr ?_)
      dsimp only at hat hplace
      omega
    · exact Or.inr (Or.inr (hpast.trans_eq hat.symm))

/-- Whatever writes of a sync land, and in whatever order, the file is torn. -/
theorem torn_of_writes (hw : SourceWf T src) (hroom : src.geo.unitAt (oldBlocks cursor) ≤ raw.length)
    {ops : List (ℕ × List UInt8)} (hops : ∀ op ∈ ops, SyncWrite src cursor pending fresh op) :
    Torn src cursor pending fresh raw (writeAll 0 raw ops) where
  length_le := length_le_length_writeAll
  front off len hlen hslot := by
    have hin : off + len ≤ raw.length := hlen.trans ((src.geo.unitAt_mono (Nat.zero_le _)).trans hroom)
    have hl := length_bytesAt hin
    have hold : Holds raw off (bytesAt raw off len) := holds_of_slice? (slice?_of_le hin)
    have hkept : Holds (writeAll 0 raw ops) off (bytesAt raw off len) := by
      refine hold.writeAll fun op hop => ?_
      rcases hops op hop with ⟨hat, hle⟩ | ⟨b, hb, rfl⟩ | hpast
      · unfold Apart
        dsimp only
        omega
      · have := src.geo.unitAt_mono (Nat.zero_le b)
        unfold Apart
        dsimp only
        omega
      · have := src.geo.unitAt_mono (Nat.zero_le (oldBlocks cursor))
        unfold Apart
        dsimp only
        omega
    rw [Holds, hl] at hkept
    rw [hkept, slice?_of_le hin]
    rfl
  unit b hb := by
    have hin : src.geo.unitAt b + src.geo.unitLen ≤ raw.length := (src.geo.unitAt_add_le hb).trans hroom
    have hl := length_bytesAt hin
    have hold : Holds raw (src.geo.unitAt b) (bytesAt raw (src.geo.unitAt b) src.geo.unitLen) :=
      holds_of_slice? (slice?_of_le hin)
    -- a write to anything but unit `b` is apart from it
    have hapart : ∀ op ∈ ops, (∃ b' ∈ writtenBlocks src cursor pending fresh, b' = b ∧
        op = (src.geo.unitAt b, unitBytes src b)) ∨ op.1 + op.2.length ≤ src.geo.unitAt b ∨
        src.geo.unitAt b + src.geo.unitLen ≤ op.1 := by
      intro op hop
      rcases hops op hop with ⟨hat, hle⟩ | ⟨b', hb', rfl⟩ | hpast
      · have := src.geo.hdrAt_add_le (Nat.mod_lt (cursor.gen + 1) (by decide : 0 < 2)) b
        exact Or.inr (Or.inl (by omega))
      · have hlen' : (unitBytes src b').length = src.geo.unitLen := length_writtenUnit hw hb'
        rcases Nat.lt_trichotomy b' b with hlt | rfl | hgt
        · have := src.geo.unitAt_add_le hlt
          exact Or.inr (Or.inl (by dsimp only; omega))
        · exact Or.inl ⟨b', hb', rfl, rfl⟩
        · exact Or.inr (Or.inr (src.geo.unitAt_add_le hgt))
      · exact Or.inr (Or.inr ((src.geo.unitAt_add_le hb).trans hpast))
    by_cases hb' : b ∈ writtenBlocks src cursor pending fresh
    · have hlen' : (unitBytes src b).length = src.geo.unitLen := length_writtenUnit hw hb'
      have hne : unitBytes src b ≠ [] := by
        rw [← List.length_pos_iff, hlen']
        exact src.geo.unitLen_pos
      have hor : Holds (writeAll 0 raw ops) (src.geo.unitAt b) (bytesAt raw (src.geo.unitAt b) src.geo.unitLen) ∨
          Holds (writeAll 0 raw ops) (src.geo.unitAt b) (unitBytes src b) := by
        refine holds_writeAll_or (Or.inl hold) hne fun op hop => ?_
        rcases hapart op hop with ⟨_, _, _, rfl⟩ | h
        · exact Or.inl rfl
        · refine Or.inr ⟨?_, ?_⟩
          · unfold Apart
            dsimp only
            omega
          · unfold Apart
            dsimp only
            omega
      rcases hor with h | h
      · have := (slice?_eq_some.mp h).2
        rw [hl] at this
        exact Or.inl this
      · have := (slice?_eq_some.mp h).2
        rw [hlen'] at this
        exact Or.inr ⟨hb', this⟩
    · have h : Holds (writeAll 0 raw ops) (src.geo.unitAt b) (bytesAt raw (src.geo.unitAt b) src.geo.unitLen) := by
        refine hold.writeAll fun op hop => ?_
        rcases hapart op hop with ⟨b', hmem, rfl, -⟩ | h
        · exact absurd hmem hb'
        · unfold Apart
          dsimp only
          omega
      have := (slice?_eq_some.mp h).2
      rw [hl] at this
      exact Or.inl this

/-- The delta of a commit names no unit that the next sync rewrites. -/
theorem Committed.delta_kept (hcm : Committed T src cursor raw img) (hpend : ∀ v ∈ pending, v ∈ img.pendingSlots)
    (hc : chooseHeader raw src.geo = some hdr) {b : ℕ} (hb : b ∈ hdr.deltaBlocks) :
    b ∉ writtenBlocks src cursor pending fresh := by
  intro hwb
  rcases List.mem_append.mp hwb with hmat | happ
  · obtain ⟨⟨v, hv, -, rfl⟩, -⟩ := mem_materialize.mp hmat
    exact hcm.apart hdr hc v (hpend v hv) hb
  · have := hcm.inside hdr hc b hb
    have := (List.mem_range'_1.mp happ).1
    omega

/-- A torn file parses to the last commit while the header of the next is not adoptable. -/
theorem Torn.parse (hw : SourceWf T src) (hnonce : cursor.nonce < 2 ^ 64) (hcm : Committed T src cursor raw img)
    (hpend : ∀ v ∈ pending, v ∈ img.pendingSlots) (h : Torn src cursor pending fresh raw raw')
    (hslot : ∀ next, parseHeaderSlot raw' src.geo ((cursor.gen + 1) % 2) raw'.length = some next →
      cursor.gen < next.gen → deltaOk raw' src.geo next = false) :
    parseImage T raw' src.kind = .ok img ∧ ∃ hdr, chooseHeader raw src.geo = some hdr ∧
      chooseHeader raw' src.geo = some hdr := by
  have hroom := hcm.room
  have hzero := (src.geo.unitAt_mono (Nat.zero_le (oldBlocks cursor))).trans hroom
  have hparse := hcm.parse
  simp only [parseImage, bind_eq_ok, reject_eq_ok, orElseError_eq_ok, pure, Except.pure, Except.ok.injEq] at hparse
  obtain ⟨sb, hsb, hdr, hchoose, u, hdim, tail, htail, ops, hops, rfl⟩ := hparse
  have hgeo : sb.geo = src.geo := hcm.geo
  have hsbeq : sb = ⟨src.geo, cursor.nonce, src.tqplusShift, src.tqplusScale⟩ := by
    cases sb
    exact (Superblock.mk.injEq ..).mpr ⟨hcm.geo, hcm.nonce, hcm.tqplusShift, hcm.tqplusScale⟩
  have hgen : hdr.gen = cursor.gen := hcm.gen
  rw [hgeo] at hchoose htail hops
  obtain ⟨hdelta, slot, hlt, hp⟩ := chooseHeader_ok hchoose
  have hparity := gen_of_parse hp
  have htarget : (cursor.gen + 1) % 2 = 1 - slot := by omega
  have hapart := src.geo.slots_apart hlt (by omega : 1 - slot < 2) (by omega)
  have hinto := src.geo.hdrAt_add_le hlt 0
  have hnext : src.geo.hdrAt (slot + 1) = src.geo.hdrAt slot + src.geo.hdrLen := src.geo.hdrAt_succ slot
  obtain ⟨hge, hgeOps⟩ := parseHeaderSlot_ge hp
  obtain ⟨hend, hendOps⟩ := parseHeaderSlot_inside hp
  have hfront := h.front
  rw [htarget] at hfront hslot
  have hp' : parseHeaderSlot raw' src.geo slot raw'.length = some hdr :=
    parseHeaderSlot_congr (hfront _ _ hinto (by omega)) h.length_le hp
  -- the units of its delta are not rewritten
  have hdelta' : deltaOk raw' src.geo hdr = true := by
    obtain ⟨units, hunits, hd⟩ := deltaOk_iff.mp hdelta
    refine deltaOk_iff.mpr ⟨units, ?_, hd⟩
    rw [← hunits]
    refine mapM_congr_mem fun b hb => ?_
    have hb' := hcm.inside hdr hchoose b hb
    have hin := (src.geo.unitAt_add_le hb').trans hroom
    rcases h.unit b hb' with heq | ⟨hmem, -⟩
    · rw [unitOf, unitOf, slice?_of_le hin, slice?_of_le (hin.trans h.length_le)]
      exact congrArg some heq
    · exact absurd hmem (hcm.delta_kept hpend hchoose hb)
  have hchoose' : chooseHeader raw' src.geo = some hdr := by
    refine chooseHeader_of_kept hlt hp' (fun next hn => ?_) hdelta'
    by_cases hahead : cursor.gen < next.gen
    · exact Or.inr (hslot next hn hahead)
    · have := gen_of_parse hn
      exact Or.inl (by omega)
  have hsb' : parseSuperblock T raw' src.kind = .ok sb := by
    rw [hsbeq]
    refine parseSuperblock_of_holds hw.ok hnonce ?_ ?_
    · have hlen := @length_superblock src cursor.nonce hw.ok.shaped
      have hle : src.geo.sbLen ≤ src.geo.hdrAt (1 - slot) := Nat.le_add_right _ _
      have := sbLen_le_unitAt src.geo
      exact (hfront 0 _ (by omega) (Or.inl (by omega))).trans hcm.superblock
    · rw [← src.geo.unitAt_zero]
      exact hzero.trans h.length_le
  refine ⟨?_, hdr, hchoose, hchoose'⟩
  simp only [parseImage, bind_eq_ok, reject_eq_ok, orElseError_eq_ok, pure, Except.pure, Except.ok.injEq]
  refine ⟨sb, hsb', hdr, by rw [hgeo]; exact hchoose', u, hdim, tail, ?_, ops, ?_, rfl⟩
  · rw [hgeo, hfront _ _ (by omega) (by omega)]
    exact htail
  · rw [hgeo, ← hops]
    refine ownOps_congr fun g hg op hop => ?_
    have := hgeOps g hg op hop
    have := hendOps g hg op hop
    exact hfront _ _ (by omega) (by omega)

/-- A rewritten unit of the last commit is one with only pending slots, and holds the rows of the commit. -/
theorem Torn.unitRow (hw : SourceWf T src) {b v : ℕ} (hb : b ∈ writtenBlocks src cursor pending fresh)
    (hold : b < oldBlocks cursor) (hv : v / BLOCK = b) :
    v < src.nVectors ∧ v ∉ fresh ∧ unitRow src.geo (unitBytes src b) (v % BLOCK) = fullRow src v := by
  have hnew : b < newBlocks src := lt_newBlocks hb
  have hl : v % BLOCK < BLOCK := Nat.mod_lt _ (by decide)
  have hdiv : b * BLOCK + v % BLOCK = v := by rw [← hv]; exact Nat.div_add_mod' _ _
  have hlt : v < newBlocks src * BLOCK := by
    rw [← hdiv]
    exact mul_add_lt hnew hl
  have hn : newBlocks src * BLOCK ≤ src.nVectors := Nat.div_mul_le_self _ _
  refine ⟨by omega, fun hf => ?_, ?_⟩
  · rcases List.mem_append.mp hb with hmat | happ
    · refine (mem_materialize.mp hmat).2 (mem_freshUnits.mpr ⟨v, hf, ?_, hv⟩)
      rw [← hdiv]
      exact mul_add_lt (lt_min hold hnew) hl
    · have := (List.mem_range'_1.mp happ).1
      omega
  · have hlt : v < src.nVectors / BLOCK * BLOCK := hlt
    rw [unitRow_unitBytes hw.ids (hw.units _ hnew) hl (by omega), hdiv, fullRow, if_pos hlt, hv]

/-- A torn file holds the rows of the last commit. -/
theorem Torn.rows (hw : SourceWf T src) (hcm : Committed T src cursor raw img) (hcontent : Writes src content)
    (hclean : ∀ v < oldBlocks cursor * BLOCK, v ∉ fresh → v < src.nVectors →
      (img.rows raw v).packed src.geo = content v) (h : Torn src cursor pending fresh raw raw') {v : ℕ}
    (hv : v < img.nVectors) : (img.rows raw' v).packed src.geo = (img.rows raw v).packed src.geo := by
  have hblocks : img.nVectors / BLOCK = oldBlocks cursor := congrArg (· / BLOCK) hcm.nVectors
  rw [ParsedImage.rows, writeRows_apply]
  cases hrec : lastRec (img.flatOps ++ img.tailRows) v with
  | some r =>
    -- a row with a record is read from the header or the tail, which are as they were
    rw [ParsedImage.rows, writeRows_apply, hrec]
    rfl
  | none =>
    have hlt : v < oldBlocks cursor * BLOCK := by
      by_contra hge
      rw [lastRec_append, lastRec_tailRows, if_pos ⟨by rw [hblocks]; omega, hv⟩] at hrec
      cases hrec
    have hb : v / BLOCK < oldBlocks cursor := Nat.div_lt_of_lt_mul (by rwa [Nat.mul_comm])
    have hraw : img.rows raw v = unitRows img.geo raw (img.nVectors / BLOCK) v := by
      rw [ParsedImage.rows, writeRows_apply, hrec]
      rfl
    show (unitRows img.geo raw' (img.nVectors / BLOCK) v).packed src.geo = _
    rw [hblocks, unitRows_of_lt _ _ hlt, hcm.geo]
    -- a rewritten unit holds no fresh slot, so the row it has now is the one it had
    rcases h.unit _ hb with heq | ⟨hmem, heq⟩
    · rw [heq, hraw, hblocks, unitRows_of_lt _ _ hlt, hcm.geo]
    · obtain ⟨hvn, hf, hrow⟩ := Torn.unitRow hw hmem hb rfl
      rw [heq, hrow, hclean v hlt hf hvn]
      exact (hcontent v hvn).1

theorem Torn.scalesOk (hw : SourceWf T src) (hcm : Committed T src cursor raw img)
    (hs : ∀ v < src.nVectors, validScale (entry src.scales v) = true) (h : Torn src cursor pending fresh raw raw') :
    ScalesOk img raw' := by
  have hblocks : img.nVectors / BLOCK = oldBlocks cursor := congrArg (· / BLOCK) hcm.nVectors
  refine ⟨fun v hv => ?_, hcm.scales.recs⟩
  have hunit := hcm.scales.units v hv
  rw [hblocks] at hv hunit ⊢
  have hb : v / BLOCK < oldBlocks cursor := Nat.div_lt_of_lt_mul (by rwa [Nat.mul_comm])
  rw [unitRows_of_lt _ _ hv, hcm.geo] at hunit ⊢
  rcases h.unit _ hb with heq | ⟨hmem, heq⟩
  · rw [heq]
    exact hunit
  · obtain ⟨hvn, -, hrow⟩ := Torn.unitRow hw hmem hb rfl
    have hlt : v < src.nVectors / BLOCK * BLOCK := by
      have hnew : v / BLOCK < newBlocks src := lt_newBlocks hmem
      rw [← Nat.div_add_mod' v BLOCK]
      exact mul_add_lt hnew (Nat.mod_lt _ (by decide))
    rw [heq, hrow, fullRow, if_pos hlt]
    exact hs v hvn

/-- A file in which any writes of a planned sync have landed, in any order, is still the file of the last commit,
row for row, while the header of the next is not adoptable. -/
theorem torn_keeps_commit (hw : SourceWf T src) (hc : Committable src cursor pending)
    (hs : ∀ v < src.nVectors, validScale (entry src.scales v) = true) (hcontent : Writes src content)
    (hcm : Committed T src cursor raw img) (hpend : ∀ v ∈ pending, v ∈ img.pendingSlots)
    (hclean : ∀ v < oldBlocks cursor * BLOCK, v ∉ fresh → v < src.nVectors →
      (img.rows raw v).packed src.geo = content v) {clearTarget : Option ℕ} {plan : SyncPlan}
    (hplan : planIncremental src cursor pending fresh clearTarget = some plan) {landed : List (ℕ × List UInt8)}
    (hlanded : ∀ op ∈ landed, plan.Lands src.geo cursor op)
    (hslot : ∀ next, parseHeaderSlot (writeAll 0 raw landed) src.geo ((cursor.gen + 1) % 2)
        (writeAll 0 raw landed).length = some next →
      cursor.gen < next.gen → deltaOk (writeAll 0 raw landed) src.geo next = false) :
    Committed T src cursor (writeAll 0 raw landed) img ∧ ∀ v < img.nVectors,
      (img.rows (writeAll 0 raw landed) v).packed src.geo = (img.rows raw v).packed src.geo := by
  have h : Torn src cursor pending fresh raw (writeAll 0 raw landed) :=
    torn_of_writes hw hcm.room fun op hop => (hlanded op hop).syncWrite (syncWrite_of_plan hw hc hplan)
  obtain ⟨hparse, hdr, hold, hnew⟩ := h.parse hw hc.nonce_lt hcm hpend hslot
  have hslots := src.geo.slots_apart (Nat.mod_lt cursor.gen (by decide))
    (Nat.mod_lt (cursor.gen + 1) (by decide : 0 < 2)) (by omega)
  have hinto := src.geo.hdrAt_add_le (Nat.mod_lt cursor.gen (by decide : 0 < 2)) 0
  have h8 := eight_le_hdrLen src.geo
  refine ⟨⟨hparse, hcm.geo, hcm.nVectors, hcm.gen, hcm.nonce, hcm.tqplusShift, hcm.tqplusScale, h.scalesOk hw hcm hs,
    ?_, ?_, ?_, ?_⟩, fun v hv => h.rows hw hcm hcontent hclean hv⟩
  · have hlen := @length_superblock src cursor.nonce hw.ok.shaped
    have hle : src.geo.sbLen ≤ src.geo.hdrAt ((cursor.gen + 1) % 2) := Nat.le_add_right _ _
    have := sbLen_le_unitAt src.geo
    exact (h.front 0 _ (by omega) (Or.inl (by omega))).trans hcm.superblock
  · have hlen : (leBytes 8 cursor.gen).length = 8 := length_leBytes _ _
    exact (h.front _ _ (by omega) (by omega)).trans hcm.slot
  · intro hdr' hc'
    obtain rfl := Option.some.inj (hnew.symm.trans hc')
    exact hcm.inside _ hold
  · intro hdr' hc'
    obtain rfl := Option.some.inj (hnew.symm.trans hc')
    exact hcm.apart _ hold

/-- A committed file passes the identity check of its cursor. -/
theorem Committed.intact (hT : T.Leveled) (hkind : src.kind ≤ 1) (hcm : Committed T src cursor raw img) :
    ∃ staleAhead, cursorState raw cursor src.geo = .intact staleAhead := by
  obtain ⟨l, hl, hL⟩ := hcm.load 0
  have hload := (loadPath_eq_ok hT (hcm.declared hT) 0 src.kind l).mpr hl
  have hparse := hcm.parse
  simp only [parseImage, bind_eq_ok, reject_eq_ok, orElseError_eq_ok, pure, Except.pure, Except.ok.injEq] at hparse
  obtain ⟨sb, hsb, hdr, hchoose, _, -, tail, -, ops, -, rfl⟩ := hparse
  have hsame : sb.geo = src.geo := hcm.geo
  have hgen : hdr.gen = cursor.gen := hcm.gen
  have h64 := (sixtyFour_le_unitAt src.geo (oldBlocks cursor)).trans hcm.room
  have hgeo : declaredGeo raw = some src.geo := hsame ▸ declaredGeo_of_parse hT h64 hkind hsb
  obtain ⟨hf, hroom, -⟩ := loadPath_ok hT hkind hload hgeo
  have hfile : SameFile raw cursor src.geo := ⟨hf.len, hf.version, hf.nonce.trans (by rw [hL.cursor]; exact hcm.nonce)⟩
  have hslot (slot : ℕ) (hs : slot < 2) : readSlot raw src.geo slot = parseHeaderSlot raw src.geo slot raw.length :=
    readSlot_eq ((src.geo.hdrAt_add_le hs 0).trans hroom)
  rw [hsame, chooseHeader] at hchoose
  rw [cursorState_of_sameFile hfile, commitState, hslot 0 (by decide), hslot 1 (by decide)]
  dsimp only
  split
  · exact ⟨none, rfl⟩
  · rw [hchoose]
    exact ⟨_, if_pos hgen⟩

end Torn

end Turbovec.IoV7
