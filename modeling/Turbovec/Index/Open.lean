import Turbovec.Index.IdMap
import Turbovec.IoV7.Declared
import Turbovec.IoV7.RoundTrip
import Turbovec.IoV7.Sync

/-!
# Opening an index

The same file contents opened by path and as bytes. A path binds the index to its file once the file
is claimed; nothing else should differ.
-/

namespace Turbovec

open Pack IoV7 Slice LittleEndian

/-- Sniff: is this a v7 file? -/
def isV7 (raw : List UInt8) : Bool := raw.take 4 == V7_MAGIC || raw.take 4 == V8_MAGIC

def TV_MAGIC : List UInt8 := [0x54, 0x56, 0x50, 0x49]

def TVIM_MAGIC : List UInt8 := [0x54, 0x56, 0x49, 0x4D]

/-- What a file that is not v7 is refused with. -/
def legacyFormatError (raw : List UInt8) (path : String) : String :=
  let version := do
    let head ← slice? raw 0 5
    guard (head.take 4 = TV_MAGIC ∨ head.take 4 = TVIM_MAGIC)
    return (entry head 4).toNat
  let detail := match version with
    | some v =>
      if 5 ≤ v ∧ v ≤ 6 then
        s!"is a version {v} turbovec index; this build reads only the v7 and v8 formats. Convert it " ++
          "with turbovec::convert (or the `convert` example), which reads v5, v6, v7 and v8 and writes " ++
          "any of them"
      else if 1 ≤ v ∧ v ≤ 4 then
        s!"is a version {v} turbovec index, which predates the v5 rotation change and cannot be " ++
          "decoded by any current build; rebuild it from the source vectors"
      else s!"claims turbovec format version {v}, which this build does not recognise"
    | none => "is not a turbovec index"
  s!"{path} {detail}."

section variable (P : Platform) (T : Tables)

/-- The path a loaded index is bound to: an unclaimed file stays unbound. -/
def bindPath (l : V7Load) (path : String) : Option String :=
  if l.cursor.nonce ≠ UNCLAIMED_NONCE then some path else none

/-- `TurboQuantIndex::load`, of a file at `path` holding `raw`. -/
def TurboQuantIndex.load (raw : List UInt8) (path : String) : Except String TurboQuantIndex :=
  if isV7 raw then do
    let l ← loadPath T raw 0 0
    return fromV7 P T l (bindPath l path)
  else .error (legacyFormatError raw path)

def TurboQuantIndex.fromBytes (raw : List UInt8) : Except String TurboQuantIndex := do
  let l ← loadImage T raw 0 0
  return fromV7 P T l none

/-- `IdMapIndex::load`, of a file at `path` holding `raw`. -/
def IdMapIndex.load (raw : List UInt8) (path : String) : Except String IdMapIndex :=
  if isV7 raw then do
    let l ← loadPath T raw 0 1
    fromV7Load P T l (bindPath l path)
  else .error (legacyFormatError raw path)

def IdMapIndex.fromBytes (raw : List UInt8) : Except String IdMapIndex := do
  let l ← loadImage T raw 0 1
  fromV7Load P T l none

/-- A path load and a byte load of `raw` succeed together, and then differ only in the binding. -/
def LoadsAgree (raw : List UInt8) (path : String) : Prop :=
  (TurboQuantIndex.load P T raw path).toOption.map TurboQuantIndex.unbound =
      (TurboQuantIndex.fromBytes P T raw).toOption.map TurboQuantIndex.unbound ∧
    (IdMapIndex.load P T raw path).toOption.map IdMapIndex.unbound =
      (IdMapIndex.fromBytes P T raw).toOption.map IdMapIndex.unbound

end

section Agree

variable {P : Platform} {T : Tables} {raw : List UInt8} {path : String}

/-- The byte loader refuses what the sniff refuses. -/
theorem isV7_of_parseSuperblock {expectKind : ℕ} {sb : Superblock}
    (h : parseSuperblock T raw expectKind = .ok sb) : isV7 raw = true := by
  rw [parseSuperblock, bind_eq_ok] at h
  obtain ⟨pre, hpre, -⟩ := h
  simp only [parsePreamble, bind_eq_ok, reject_eq_ok, pure, Except.pure] at hpre
  obtain ⟨_, hmagic, -⟩ := hpre
  simp only [Bool.or_eq_false_iff, Bool.and_eq_false_iff, bne_eq_false_iff_eq] at hmagic
  rw [isV7, Bool.or_eq_true, beq_iff_eq, beq_iff_eq]
  exact hmagic.2

theorem isV7_of_parseImage {expectKind : ℕ} {img : ParsedImage}
    (h : parseImage T raw expectKind = .ok img) : isV7 raw = true := by
  rw [parseImage, bind_eq_ok] at h
  obtain ⟨sb, hsb, -⟩ := h
  exact isV7_of_parseSuperblock hsb

theorem toOption_eq_some {α ε : Type} {x : Except ε α} {a : α} : x.toOption = some a ↔ x = .ok a := by
  cases x with
  | ok b => simp [Except.toOption]
  | error e => simp [Except.toOption]

theorem toOption_congr {α ε : Type} {x y : Except ε α} (h : ∀ a, x = .ok a ↔ y = .ok a) :
    x.toOption = y.toOption := by
  ext a
  rw [toOption_eq_some, toOption_eq_some, h]

theorem toOption_bind {α β ε : Type} (x : Except ε α) (f : α → Except ε β) :
    (x >>= f).toOption = x.toOption.bind fun a => (f a).toOption := by
  cases x with
  | ok a => rfl
  | error e => rfl

/-- The payloads agree when the newest commit's delta lies inside the declared image. -/
theorem payload_agrees (hT : T.Leveled) (h : DeltaDeclared raw) (expectKind : ℕ) :
    (if isV7 raw = true then (loadPath T raw 0 expectKind).toOption else none) =
      (loadImage T raw 0 expectKind).toOption := by
  have hok := toOption_congr (loadPath_eq_ok hT h 0 expectKind)
  split
  · exact hok
  · rename_i hv
    symm
    rw [Option.eq_none_iff_forall_ne_some]
    intro l hl
    obtain ⟨img, himg, -⟩ := loadImage_ok (toOption_eq_some.mp hl)
    exact hv (isV7_of_parseImage himg)

theorem fromV7Load_unbound (l : V7Load) (path path' : Option String) :
    (IdMapIndex.fromV7Load P T l path).toOption.map IdMapIndex.unbound =
      (IdMapIndex.fromV7Load P T l path').toOption.map IdMapIndex.unbound := by
  rw [IdMapIndex.fromV7Load, IdMapIndex.fromV7Load]
  split
  · rfl
  · rfl

/-- Both loads of a file agree when its newest commit's delta lies inside the declared image; and the
path load sees that commit exactly then. -/
theorem loads_agree_of_deltaDeclared (hT : T.Leveled) :
    ((∀ geo, declaredGeo raw = some geo →
      chooseHeader (raw.take (wantLen raw)) geo = chooseHeader raw geo) ↔ DeltaDeclared raw) ∧
    (DeltaDeclared raw → ∀ path, LoadsAgree P T raw path) := by
  refine ⟨chooseHeader_wantLen_iff, fun h path => ⟨?_, ?_⟩⟩
  · have hp := payload_agrees hT h 0
    rw [TurboQuantIndex.fromBytes, toOption_bind, ← hp, TurboQuantIndex.load]
    split
    · rw [toOption_bind]
      cases (loadPath T raw 0 0).toOption with
      | none => rfl
      | some l => rfl
    · rfl
  · have hp := payload_agrees hT h 1
    rw [IdMapIndex.fromBytes, toOption_bind, ← hp, IdMapIndex.load]
    split
    · rw [toOption_bind]
      cases (loadPath T raw 0 1).toOption with
      | none => rfl
      | some l => exact fromV7Load_unbound l _ _
    · rfl

end Agree

/-! ## A delta past the declared image -/

/-- A file written and then synced, with the unit of a pending slot in its delta, opens alike by path and as bytes. -/
theorem syncedImage_agrees : ∃ plan hdr,
    planIncremental (blankSource 64) ⟨0, 64, 0, 7⟩ {3} {40} none = some plan ∧
    chooseHeader (runSync (writeImage (blankSource 64) 0 7) plan) (blankSource 64).geo = some hdr ∧ hdr.deltaBlocks = [0] ∧
    LoadsAgree ⟨.other, false, false, false, false, false, false⟩ levelTables
      (runSync (writeImage (blankSource 64) 0 7) plan) "index.tv" := by
  have hw : SourceWf levelTables (blankSource 64) := blankSource_levelWf (by decide)
  have hs : ∀ v < (blankSource 64).nVectors, validScale (entry (blankSource 64).scales v) = true := by
    decide +kernel
  have hcontent : Writes (blankSource 64) fun v => ((blankSource 64).row v).packed (blankSource 64).geo := by
    unfold Writes
    decide +kernel
  have hc : Committable (blankSource 64) ⟨0, 64, 0, 7⟩ {3} := ⟨by decide, by decide, by decide, by decide, by decide⟩
  have hcm := committed_writeImage hw hs (show 7 < 2 ^ 64 by decide) 0
  obtain ⟨plan, hplan⟩ := @planIncremental_of_card (blankSource 64) ⟨0, 64, 0, 7⟩ {3} {40} (by decide) none
  obtain ⟨img', hcm', -⟩ := sync_commits hw hc hs hcontent hcm (fun v hv => by cases hv)
    (fun v _ _ hv => rows_writeImage hw hcontent 7 hv) hplan
  obtain ⟨hle, -, -, -⟩ := planIncremental_writes hw hplan (writeImage (blankSource 64) 0 7)
  obtain ⟨-, hdelta⟩ := (@landed levelTables (blankSource 64) _ {3} {40} _ hw hc _ _ hplan).parse hw hc hle hcm
  have hparse := hcm'.parse
  simp only [parseImage, bind_eq_ok, reject_eq_ok, orElseError_eq_ok, pure, Except.pure, Except.ok.injEq] at hparse
  obtain ⟨sb, -, hdr, hchoose, _, -, tail, -, ops, -, rfl⟩ := hparse
  have hgeo : sb.geo = (blankSource 64).geo := hcm'.geo
  rw [hgeo] at hchoose
  -- the unit of the pending slot is written, and the changed one is carried in the header
  refine ⟨plan, hdr, hplan, hchoose, (hdelta hdr hchoose).trans (by decide +kernel), ?_⟩
  exact (loads_agree_of_deltaDeclared levelTables_leveled).2 (hcm'.declared levelTables_leveled) _

/-- A file can open by path and as bytes to different rows. -/
theorem not_loads_agree : ¬ ∀ (P : Platform) (T : Tables) (raw : List UInt8) (path : String),
    T.Leveled → LoadsAgree P T raw path := by
  intro h
  obtain ⟨h0, h1, ht⟩ := trailing_parse
  obtain ⟨l, hload, hrows, -⟩ := ht.loadPath_rows
  have hagree := (h ⟨.other, false, false, false, false, false, false⟩ levelTables trailingImage "index.tv"
    levelTables_leveled).1
  rw [TurboQuantIndex.load, if_pos (isV7_of_parseSuperblock ht.superblock_ok), hload] at hagree
  cases hbytes : loadImage levelTables trailingImage 0 0 with
  | error e =>
    rw [TurboQuantIndex.fromBytes, hbytes] at hagree
    cases hagree
  | ok l' =>
    rw [TurboQuantIndex.fromBytes, hbytes] at hagree
    have hn := congrArg (Option.map TurboQuantIndex.nVectors) hagree
    have hn : l.nVectors = l'.nVectors := Option.some.inj hn
    rw [hrows, ht.loadImage_rows hbytes] at hn
    exact absurd hn (by decide)

end Turbovec
