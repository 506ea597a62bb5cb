import Turbovec.IoV7.Declared

/-!
# The sync identity check

Before a sync writes, it asks whether the file still ends at the commit its cursor names. The check
reads each header slot in a short prefix first and takes the newest header at the cursor's generation
without verifying its delta again; the loader parses whole slots of the bytes the file declares.
-/

namespace Turbovec.IoV7

open LittleEndian Slice Grid Pack

inductive CursorState
  | intact (staleAhead : Option ℕ)
  | foreign
  | replaced
deriving DecidableEq, Repr

/-- One slot, from its probe prefix, widened once to the whole slot. -/
def readSlot (raw : List UInt8) (geo : Geo) (slot : ℕ) : Option ParsedHdr := do
  let at_ := geo.hdrAt slot
  guard (at_ ≤ raw.length)
  let avail := raw.length - at_
  let want := min geo.hdrProbeLen avail
  match parseHeaderAt (bytesAt raw at_ want) at_ geo slot raw.length with
  | some h => some h
  | none =>
    let full := min geo.hdrLen avail
    if full ≤ want then none else parseHeaderAt (bytesAt raw at_ full) at_ geo slot raw.length

/-- The newest adoptable commit against the cursor's. The cursor's own commit, still the newest header,
is not verified again. -/
def commitState (raw : List UInt8) (cursor : SyncCursor) (geo : Geo) : CursorState :=
  let cands := candidates (readSlot raw geo 0) (readSlot raw geo 1)
  if cands.head?.any (fun h => decide (h.gen = cursor.gen)) then .intact none
  else
    let staleAhead := ((cands.filter fun h => decide (cursor.gen < h.gen)).map ParsedHdr.used).max?
    match cands.find? (deltaOk raw geo) with
    | some h => if h.gen = cursor.gen then .intact staleAhead else .foreign
    | none => .replaced

/-- What a file is to a cursor. -/
def cursorState (raw : List UInt8) (cursor : SyncCursor) (geo : Geo) : CursorState :=
  match slice? raw 0 20 with
  | none => .replaced
  | some head =>
    match sniffVersion head with
    | none => .replaced
    | some (version, layout) =>
      let sbFixed := if version = 8 then 24 else 23
      let fileNonce := ofLe (bytesAt head (sbFixed - 12) 8)
      if fileNonce ≠ cursor.nonce then
        if fileNonce = UNCLAIMED_NONCE then .replaced else .foreign
      else if version ≠ geo.version ∨ layout ≠ geo.layout then .replaced
      else commitState raw cursor geo

/-! ## Slots -/

section Slots

variable {raw : List UInt8} {geo : Geo} {slot : ℕ} {h : ParsedHdr}

theorem Geo.hdrProbeLen_le (geo : Geo) : geo.hdrProbeLen ≤ geo.hdrLen := by
  simp only [Geo.hdrProbeLen, Geo.hdrLen, MAX_OPS]
  omega

/-- A slot read by prefixes is the slot read whole. -/
theorem readSlot_eq (hroom : geo.hdrAt slot + geo.hdrLen ≤ raw.length) :
    readSlot raw geo slot = parseHeaderSlot raw geo slot raw.length := by
  have hprobe := geo.hdrProbeLen_le
  have hwant : min geo.hdrProbeLen (raw.length - geo.hdrAt slot) = geo.hdrProbeLen :=
    Nat.min_eq_left (by omega)
  have hfull : min geo.hdrLen (raw.length - geo.hdrAt slot) = geo.hdrLen := Nat.min_eq_left (by omega)
  have hslice : slice? raw (geo.hdrAt slot) geo.hdrLen = some (bytesAt raw (geo.hdrAt slot) geo.hdrLen) :=
    slice?_of_le hroom
  have hpre : bytesAt raw (geo.hdrAt slot) geo.hdrProbeLen =
      (bytesAt raw (geo.hdrAt slot) geo.hdrLen).take geo.hdrProbeLen :=
    (take_bytesAt raw _ hprobe).symm
  rw [readSlot, parseHeaderSlot, hslice, Option.bind_eq_bind, Option.bind_eq_bind, Option.bind_some,
    guard_pos (by omega), Option.bind_some]
  dsimp only
  rw [hwant, hfull]
  cases hp : parseHeaderAt (bytesAt raw (geo.hdrAt slot) geo.hdrProbeLen) (geo.hdrAt slot) geo slot
      raw.length with
  | some h =>
    rw [hpre] at hp
    exact (parseHeaderAt_of_take hp).symm
  | none =>
    dsimp only
    split
    · rename_i hle
      rw [hpre, List.take_of_length_le (by rw [length_bytesAt hroom]; exact hle)] at hp
      exact hp.symm
    · rfl

/-- A header the loader parses is one the check parses. -/
theorem readSlot_of_parse (hp : parseHeaderSlot raw geo slot raw.length = some h) :
    readSlot raw geo slot = some h := by
  have hslice := hp
  rw [parseHeaderSlot, Option.bind_eq_bind, Option.bind_eq_some_iff] at hslice
  obtain ⟨bytes, hbytes, -⟩ := hslice
  rw [readSlot_eq (slice?_eq_some.mp hbytes).1, hp]

theorem gen_of_parse {fileLen : ℕ} (hp : parseHeaderSlot raw geo slot fileLen = some h) :
    h.gen % 2 = slot := by
  rw [parseHeaderSlot, Option.bind_eq_bind, Option.bind_eq_some_iff] at hp
  obtain ⟨bytes, -, hp⟩ := hp
  obtain ⟨_, hf⟩ := parseHeaderAt_eq_some.mp hp
  exact hf.parity

end Slots

/-! ## Candidates -/

section Candidates

variable {h0 h1 : Option ParsedHdr} {q : ParsedHdr → Bool} {h a : ParsedHdr}

/-- Candidates come newest first. -/
theorem candidates_sorted (h0 h1 : Option ParsedHdr) :
    (candidates h0 h1).Pairwise fun a b => b.gen ≤ a.gen := by
  rcases h0 with _ | h0 <;> rcases h1 with _ | h1 <;> simp only [candidates]
  · exact List.Pairwise.nil
  · exact List.pairwise_singleton _ _
  · exact List.pairwise_singleton _ _
  · split
    · exact List.pairwise_pair.mpr (Nat.le_of_lt ‹_›)
    · exact List.pairwise_pair.mpr (Nat.le_of_not_lt ‹_›)

/-- The first of a sorted list that passes is the newest that passes. -/
theorem le_of_find? {l : List ParsedHdr} (hl : l.Pairwise fun a b => b.gen ≤ a.gen)
    (hf : l.find? q = some h) (ha : a ∈ l) (hq : q a = true) : a.gen ≤ h.gen := by
  induction l with
  | nil => cases ha
  | cons x l ih =>
    rw [List.pairwise_cons] at hl
    rw [List.find?_cons] at hf
    cases hx : q x with
    | true =>
      rw [hx] at hf
      obtain rfl := Option.some.inj hf
      rcases List.mem_cons.mp ha with rfl | ha
      · exact Nat.le_refl _
      · exact hl.1 a ha
    | false =>
      rw [hx] at hf
      rcases List.mem_cons.mp ha with rfl | ha
      · rw [hx] at hq
        cases hq
      · exact ih hl.2 hf ha

/-- The two slots' headers differ in the parity of their generations. -/
def Parities (h0 h1 : Option ParsedHdr) : Prop :=
  (∀ h, h0 = some h → h.gen % 2 = 0) ∧ ∀ h, h1 = some h → h.gen % 2 = 1

theorem Parities.eq_of_gen (hp : Parities h0 h1) (hh : h ∈ candidates h0 h1) (ha : a ∈ candidates h0 h1)
    (hgen : h.gen = a.gen) : h = a := by
  rcases mem_candidates.mp hh with hh | hh <;> rcases mem_candidates.mp ha with ha | ha
  · exact Option.some.inj (hh.symm.trans ha)
  · have := hp.1 h hh
    have := hp.2 a ha
    omega
  · have := hp.2 h hh
    have := hp.1 a ha
    omega
  · exact Option.some.inj (hh.symm.trans ha)

/-- At most one candidate is newer than another. -/
theorem newer_unique (hh : h ∈ candidates h0 h1) {u : ℕ} :
    (((candidates h0 h1).filter fun a => decide (h.gen < a.gen)).map ParsedHdr.used).max? = some u ↔
      ∃ a ∈ candidates h0 h1, h.gen < a.gen ∧ a.used = u := by
  rcases h0 with _ | x <;> rcases h1 with _ | y
  · simp [candidates] at hh
  · obtain rfl : h = y := by simpa [candidates] using hh
    simp [candidates]
  · obtain rfl : h = x := by simpa [candidates] using hh
    simp [candidates]
  · have hmem := mem_candidates.mp hh
    rw [Option.some.injEq, Option.some.injEq] at hmem
    simp only [candidates]
    rcases hmem with rfl | rfl
    · split
      · rename_i hlt
        simp [hlt]
      · rename_i hlt
        simp [hlt]
    · split
      · rename_i hlt
        have : ¬ y.gen < x.gen := by omega
        simp [this]
      · by_cases hlt : y.gen < x.gen
        · simp [hlt]
        · simp [hlt]

end Candidates

/-! ## The file a cursor names -/

section Identity

variable {T : Tables} {raw : List UInt8} {geo : Geo} {cursor : SyncCursor} {expectKind m : ℕ}

/-- The file's first bytes are the cursor's file in the index's form. -/
structure SameFile (raw : List UInt8) (cursor : SyncCursor) (geo : Geo) : Prop where
  len : 20 ≤ raw.length
  version : sniffVersion (raw.take 20) = some (geo.version, geo.layout)
  nonce : ofLe (bytesAt (raw.take 20) ((if geo.version = 8 then 24 else 23) - 12) 8) = cursor.nonce

theorem cursorState_of_sameFile (h : SameFile raw cursor geo) :
    cursorState raw cursor geo = commitState raw cursor geo := by
  have hslice : slice? raw 0 20 = some (raw.take 20) := slice?_of_le h.len
  simp only [cursorState, hslice, h.version, h.nonce, ne_eq, not_true_eq_false, or_self, if_false]

theorem SameFile.congr {raw' : List UInt8} (h : SameFile raw cursor geo) (hp : raw'.take 20 = raw.take 20) :
    SameFile raw' cursor geo := by
  have hlen := congrArg List.length hp
  rw [List.length_take, List.length_take, Nat.min_eq_left h.len] at hlen
  exact ⟨by omega, hp ▸ h.version, hp ▸ h.nonce⟩

theorem sniffVersion_take (h : 8 ≤ m) : sniffVersion (raw.take m) = sniffVersion raw := by
  rw [sniffVersion, sniffVersion, List.take_take, Nat.min_eq_left (by omega), entry_take (by omega),
    entry_take (by omega)]

theorem nonce_of_parse {pre : Preamble} (hp : parsePreamble raw expectKind = .ok pre) :
    readLe? raw ((if pre.version = 8 then 24 else 23) - 12) 8 = some pre.nonce := by
  simp only [parsePreamble, bind_eq_ok, reject_eq_ok, readU32, readU64At, orElseError_eq_ok, pure,
    Except.pure, Except.ok.injEq] at hp
  obtain ⟨_, -, _, -, _, -, _, -, _, -, _, -, _, -, dim, -, _, -, _, -, nonce, hnonce, ops, -, _, -, rfl⟩ := hp
  exact hnonce

theorem sixtyFour_le_unitAt (geo : Geo) (b : ℕ) : 64 ≤ geo.unitAt b := by
  refine le_trans ?_ (geo.unitAt_mono (Nat.zero_le b))
  rw [geo.unitAt_zero]
  simp only [Geo.hdrAt, Geo.hdrLen, MAX_OPS]
  omega

theorem declaredGeo_of_take (h : declaredGeo (raw.take m) = some geo) : declaredGeo raw = some geo := by
  simp only [declaredGeo, Option.bind_eq_bind, Option.bind_eq_some_iff] at h ⊢
  obtain ⟨sb, hsb, x, hx, u, hu, dim, hdim, w, hw, nCalib, hn, rest⟩ := h
  exact ⟨sb, slice?_of_take hsb, x, hx, u, hu, dim, hdim, w, hw, nCalib, readLe?_of_take hn, rest⟩

/-- What a path load establishes of the file. -/
theorem loadPath_ok (hT : T.Leveled) (hkind : expectKind ≤ 1) {g : ℕ} {l : V7Load}
    (hload : loadPath T raw g expectKind = .ok l) (hgeo : declaredGeo raw = some geo) :
    SameFile raw l.cursor geo ∧ geo.unitAt 0 ≤ raw.length ∧
      ∃ h, chooseHeader (raw.take (wantLen raw)) geo = some h ∧ l.cursor.gen = h.gen := by
  obtain ⟨img, himg, -, hl⟩ := loadImage_ok hload
  have hfit := (parseImage_ok himg).2.2
  have h64 := (sixtyFour_le_unitAt img.geo (img.nVectors / BLOCK)).trans hfit
  have hle : 64 ≤ raw.length := by
    rw [List.length_take] at h64
    omega
  have hw : 64 ≤ wantLen raw := by
    rw [List.length_take] at h64
    omega
  rw [parseImage, bind_eq_ok] at himg
  obtain ⟨sb, hsb, himg⟩ := himg
  have hd := declaredGeo_of_take (declaredGeo_of_parse hT h64 hkind hsb)
  obtain rfl := Option.some.inj (hd.symm.trans hgeo)
  simp only [bind_eq_ok, orElseError_eq_ok, pure, Except.pure, Except.ok.injEq] at himg
  obtain ⟨h, hchoose, _, -, tail, -, ops, -, rfl⟩ := himg
  have hroom : sb.geo.unitAt 0 ≤ raw.length := by
    refine (sb.geo.unitAt_mono (Nat.zero_le _)).trans (hfit.trans ?_)
    rw [List.length_take]
    exact Nat.min_le_right _ _
  refine ⟨?_, hroom, h, hchoose, by rw [hl.cursor]⟩
  rw [parseSuperblock, bind_eq_ok] at hsb
  obtain ⟨pre, hpre, hsb⟩ := hsb
  obtain ⟨hsniff, -, -, -, -⟩ := sniffVersion_of_parse hpre
  have hnonce := readLe?_of_take (nonce_of_parse hpre)
  have hversion : sb.geo.version = pre.version ∧ sb.geo.layout = pre.layout ∧ sb.nonce = pre.nonce := by
    simp only [parseCalibration, bind_eq_ok, pure, Except.pure, Except.ok.injEq] at hsb
    obtain ⟨_, -, _, -, _, -, _, -, _, -, _, -, _, -, _, -, _, -, rfl⟩ := hsb
    exact ⟨rfl, rfl, rfl⟩
  obtain ⟨hv, hla, hno⟩ := hversion
  refine ⟨by omega, ?_, ?_⟩
  · rw [sniffVersion_take (by decide), sniffVersion_take (by omega)] at hsniff
    rw [sniffVersion_take (by decide), hsniff, hv, hla]
  · have hoff : (if pre.version = 8 then 24 else 23) - 12 + 8 ≤ 20 := by
      split <;> omega
    rw [← readLe?_take hoff, readLe?, Option.map_eq_some_iff] at hnonce
    obtain ⟨bs, hbs, hval⟩ := hnonce
    rw [hv, hl.cursor]
    rw [bytesAt, (slice?_eq_some.mp hbs).2, hval, hno]

/-- The commit a path load adopts, among the headers of the whole file. -/
theorem chooseHeader_wantLen (hgeo : declaredGeo raw = some geo) :
    chooseHeader (raw.take (wantLen raw)) geo =
      (candidates (parseHeaderSlot raw geo 0 raw.length) (parseHeaderSlot raw geo 1 raw.length)).find?
        (deltaOk (raw.take (wantLen raw)) geo) := by
  rcases wantLen_cases raw with hw | ⟨geo', n0, n1, -, hgeo', h0, h1, hlen, hle⟩
  · rw [hw, List.take_length, chooseHeader]
  · obtain rfl := Option.some.inj (hgeo'.symm.trans hgeo)
    exact chooseHeader_take h0 h1 hlen hle

theorem deltaDeclared_iff (hgeo : declaredGeo raw = some geo) : DeltaDeclared raw ↔
    chooseHeader (raw.take (wantLen raw)) geo = chooseHeader raw geo := by
  rw [← chooseHeader_wantLen_iff]
  constructor
  · intro h
    exact h geo hgeo
  · intro h geo' hgeo'
    obtain rfl := Option.some.inj (hgeo.symm.trans hgeo')
    exact h

theorem parities (raw : List UInt8) (geo : Geo) (fileLen : ℕ) :
    Parities (parseHeaderSlot raw geo 0 fileLen) (parseHeaderSlot raw geo 1 fileLen) :=
  ⟨fun _ h => gen_of_parse h, fun _ h => gen_of_parse h⟩

end Identity

/-! ## The check against the load -/

section Agree

variable {T : Tables} {raw : List UInt8} {geo : Geo} {cursor : SyncCursor} {expectKind : ℕ}

/-- A header of the file newer than the cursor's commit, and the bytes it occupies. -/
def NewerHeader (raw : List UInt8) (geo : Geo) (cursor : SyncCursor) (h : ParsedHdr) : Prop :=
  (∃ slot < 2, parseHeaderSlot raw geo slot raw.length = some h) ∧ cursor.gen < h.gen

/-- The check agrees with the load: on the unchanged file it answers intact, naming the header ahead of
the commit if there is one; and on contents of the same file with a newer adoptable commit, foreign. -/
structure SyncAgrees (raw : List UInt8) (cursor : SyncCursor) (geo : Geo) : Prop where
  intact : ∃ staleAhead, cursorState raw cursor geo = .intact staleAhead ∧
    ∀ u, staleAhead = some u ↔ ∃ h, NewerHeader raw geo cursor h ∧ h.used = u
  foreign : ∀ raw' : List UInt8, raw'.take 20 = raw.take 20 →
    (∃ h, NewerHeader raw' geo cursor h ∧ deltaOk raw' geo h = true) →
      cursorState raw' cursor geo = .foreign

theorem newerHeader_iff {h : ParsedHdr} : NewerHeader raw geo cursor h ↔
    h ∈ candidates (parseHeaderSlot raw geo 0 raw.length) (parseHeaderSlot raw geo 1 raw.length) ∧
      cursor.gen < h.gen := by
  rw [mem_candidates, NewerHeader]
  refine and_congr_left fun _ => ⟨?_, ?_⟩
  · rintro ⟨slot, hs, hp⟩
    have hslot : slot = 0 ∨ slot = 1 := by omega
    rcases hslot with rfl | rfl
    · exact Or.inl hp
    · exact Or.inr hp
  · rintro (hp | hp)
    · exact ⟨0, by decide, hp⟩
    · exact ⟨1, by decide, hp⟩

/-- A newer adoptable commit is another writer's. -/
theorem cursorState_foreign (hf : SameFile raw cursor geo)
    (h : ∃ h, NewerHeader raw geo cursor h ∧ deltaOk raw geo h = true) :
    cursorState raw cursor geo = .foreign := by
  obtain ⟨h, ⟨⟨slot, hs, hp⟩, hgen⟩, hok⟩ := h
  have hslot : slot = 0 ∨ slot = 1 := by omega
  have hmem : h ∈ candidates (readSlot raw geo 0) (readSlot raw geo 1) := by
    have hread := readSlot_of_parse hp
    rw [mem_candidates]
    rcases hslot with rfl | rfl
    · exact Or.inl hread
    · exact Or.inr hread
  have hsorted := candidates_sorted (readSlot raw geo 0) (readSlot raw geo 1)
  rw [cursorState_of_sameFile hf, commitState]
  dsimp only
  rw [if_neg]
  · cases hfind : (candidates (readSlot raw geo 0) (readSlot raw geo 1)).find? (deltaOk raw geo) with
    | none => exact absurd hok (List.find?_eq_none.mp hfind h hmem)
    | some a =>
      have hle := le_of_find? hsorted hfind hmem hok
      exact if_neg (by omega)
  · -- the first candidate is no older than the newer commit
    cases hc : candidates (readSlot raw geo 0) (readSlot raw geo 1) with
    | nil => simp
    | cons x l =>
      rw [hc] at hsorted hmem
      have hle : h.gen ≤ x.gen := by
        rcases List.mem_cons.mp hmem with rfl | hmem
        · exact Nat.le_refl _
        · exact (List.pairwise_cons.mp hsorted).1 h hmem
      simp only [List.head?_cons, Option.any_some, decide_eq_true_eq]
      omega

/-- The loader reads a delta of the declared bytes as one of the whole file. -/
theorem deltaOk_of_wantLen {h : ParsedHdr} (hok : deltaOk (raw.take (wantLen raw)) geo h = true) :
    deltaOk raw geo h = true :=
  ((deltaOk_take (Nat.min_le_right _ _)).mp hok).1

theorem find?_of_head {α : Type} {q : α → Bool} {l : List α} {x : α} (hx : l.head? = some x)
    (hq : q x = true) : l.find? q = some x := by
  cases l with
  | nil => cases hx
  | cons y l =>
    obtain rfl := Option.some.inj hx
    rw [List.find?_cons, hq]

/-- The check agrees with the load of a file exactly when the newest commit of the whole file is one the
load can see. -/
theorem syncAgrees_iff (hT : T.Leveled) (hkind : expectKind ≤ 1) {g : ℕ} {l : V7Load}
    (hload : loadPath T raw g expectKind = .ok l) (hgeo : declaredGeo raw = some geo) :
    SyncAgrees raw l.cursor geo ↔ DeltaDeclared raw := by
  obtain ⟨hf, hroom, h, hchoose, hgen⟩ := loadPath_ok hT hkind hload hgeo
  have hslot (slot : ℕ) (hs : slot < 2) : readSlot raw geo slot = parseHeaderSlot raw geo slot raw.length := by
    refine readSlot_eq ?_
    rw [← geo.hdrAt_succ]
    exact (geo.hdrAt_le_unitAt (by omega)).trans hroom
  rw [chooseHeader_wantLen hgeo] at hchoose
  rw [deltaDeclared_iff hgeo, chooseHeader_wantLen hgeo, hchoose, chooseHeader]
  have hmem := List.mem_of_find?_eq_some hchoose
  have hok := deltaOk_of_wantLen (List.find?_some hchoose)
  have hstate : cursorState raw l.cursor geo = commitState raw l.cursor geo := cursorState_of_sameFile hf
  rw [commitState, hslot 0 (by decide), hslot 1 (by decide)] at hstate
  dsimp only at hstate
  have hforeign : ∀ raw' : List UInt8, raw'.take 20 = raw.take 20 →
      (∃ h, NewerHeader raw' geo l.cursor h ∧ deltaOk raw' geo h = true) →
        cursorState raw' l.cursor geo = .foreign :=
    fun raw' hp hnew => cursorState_foreign (hf.congr hp) hnew
  have hsorted := candidates_sorted (parseHeaderSlot raw geo 0 raw.length)
    (parseHeaderSlot raw geo 1 raw.length)
  have hinj : ∀ a ∈ candidates (parseHeaderSlot raw geo 0 raw.length) (parseHeaderSlot raw geo 1 raw.length),
      a.gen = h.gen → a = h :=
    fun a ha => (parities raw geo raw.length).eq_of_gen ha hmem
  have hnewer (a : ParsedHdr) := @newerHeader_iff raw geo l.cursor a
  have hstale := @newer_unique _ _ h hmem
  generalize candidates (parseHeaderSlot raw geo 0 raw.length) (parseHeaderSlot raw geo 1 raw.length) = C
    at *
  rw [hgen] at hstate
  obtain ⟨a, ha⟩ : ∃ a, C.find? (deltaOk raw geo) = some a :=
    Option.isSome_iff_exists.mp (List.find?_isSome.mpr ⟨h, hmem, hok⟩)
  rw [ha]
  by_cases hhead : C.head?.any (fun a => decide (a.gen = h.gen)) = true
  · -- the loaded commit is still the newest header: the first candidate, which verifies
    obtain ⟨x, hx, hxgen⟩ : ∃ x, C.head? = some x ∧ x.gen = h.gen := by
      cases hx : C.head? with
      | none => simp [hx] at hhead
      | some x => exact ⟨x, rfl, by simpa [hx] using hhead⟩
    obtain rfl := hinj x (List.mem_of_head? hx) hxgen
    obtain rfl := Option.some.inj (ha.symm.trans (find?_of_head hx hok))
    rw [if_pos hhead] at hstate
    have hnone : ∀ b, ¬ NewerHeader raw geo l.cursor b := fun b hb => by
      obtain ⟨hbmem, hblt⟩ := (hnewer b).mp hb
      have hle := @le_of_find? (fun _ => true) a b C hsorted (find?_of_head hx rfl) hbmem rfl
      omega
    refine ⟨fun _ => rfl, fun _ => ⟨⟨none, hstate, fun u => ?_⟩, hforeign⟩⟩
    constructor
    · intro hu
      cases hu
    · rintro ⟨b, hb, -⟩
      exact absurd hb (hnone b)
  · rw [if_neg hhead, ha] at hstate
    dsimp only at hstate
    constructor
    · rintro ⟨⟨stale, hintact, -⟩, -⟩
      rw [hstate] at hintact
      split at hintact
      · rename_i heq
        rw [hinj a (List.mem_of_find?_eq_some ha) heq]
      · cases hintact
    · intro heq
      obtain rfl := Option.some.inj heq
      rw [if_pos rfl] at hstate
      refine ⟨⟨_, hstate, fun u => ?_⟩, hforeign⟩
      rw [hstale]
      simp only [hnewer, hgen, and_assoc]

/-- On a written image the check agrees with the load. -/
theorem blankImage_syncAgrees : ∃ l, loadPath levelTables (writeImage (blankSource 32) 0 7) 0 0 = .ok l ∧
    (SyncAgrees (writeImage (blankSource 32) 0 7) l.cursor (blankSource 32).geo ↔
      DeltaDeclared (writeImage (blankSource 32) 0 7)) := by
  have hw : SourceWf levelTables (blankSource 32) := blankSource_levelWf (by decide)
  have himg := fullImage_writeImage hw 0 7
  have hd := deltaDeclared_of_full levelTables_leveled hw himg (by decide) rfl (by decide)
  have hscales : ∀ v < (blankSource 32).nVectors, validScale (entry (blankSource 32).scales v) = true := by
    intro v _
    show validScale (entry (List.replicate 32 (0 : F32)) v) = true
    rw [entry_replicate_zero]
    exact validScale_zero
  obtain ⟨l, hl, -⟩ := @loadImage_writeImage levelTables (blankSource 32) 0 7 hw (by decide) rfl (by decide)
    hscales 0
  have hlen : (blankSource 32).geo.hdrAt 2 ≤ (writeImage (blankSource 32) 0 7).length :=
    himg.length_eq ▸ Geo.hdrAt_two_le_fullLen _ _
  have hgeo : declaredGeo (writeImage (blankSource 32) 0 7) = some (blankSource 32).geo := by
    refine declaredGeo_of_parse levelTables_leveled ?_ (Nat.zero_le 1)
      (@parseSuperblock_of_holds levelTables (blankSource 32) _ 7 hw.ok (by decide) himg.superblock hlen)
    rw [← Geo.unitAt_zero] at hlen
    exact (sixtyFour_le_unitAt _ 0).trans hlen
  have hload := (loadPath_eq_ok levelTables_leveled hd 0 0 l).mpr hl
  exact ⟨l, hload, syncAgrees_iff levelTables_leveled (Nat.zero_le 1) hload hgeo⟩

/-- A loaded file can be answered foreign. -/
theorem not_syncAgrees : ¬ ∀ (T : Tables) (raw : List UInt8) (geo : Geo) (expectKind g : ℕ) (l : V7Load),
    T.Leveled → expectKind ≤ 1 → loadPath T raw g expectKind = .ok l → declaredGeo raw = some geo →
      geo.version = 8 → l.cursor.nonce ≠ UNCLAIMED_NONCE → SyncAgrees raw l.cursor geo := by
  intro h
  obtain ⟨h0, h1, ht⟩ := trailing_parse
  obtain ⟨l, hload, -, hnonce⟩ := ht.loadPath_rows
  have hagree := h levelTables trailingImage _ 0 0 l levelTables_leveled (by decide) hload ht.declaredGeo_eq rfl
    (by rw [hnonce]; decide)
  rw [syncAgrees_iff levelTables_leveled (by decide) hload ht.declaredGeo_eq,
    deltaDeclared_iff ht.declaredGeo_eq, ht.choose_take, ht.choose] at hagree
  have hgen := congrArg ParsedHdr.gen (Option.some.inj hagree)
  rw [ht.says0.gen_eq, ht.says1.gen_eq] at hgen
  exact absurd hgen (by decide)

end Agree

end Turbovec.IoV7
