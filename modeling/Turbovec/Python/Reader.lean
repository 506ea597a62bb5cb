import Mathlib.Logic.Relation
import Turbovec.Python.Micro

/-!
# A read beside the writes

A search takes no lock: it asks the index once, and then the maps for each handle it got. What it returns is
traced through every interleaving with the steps of the writes, the additions that raise among them. Each row carries
the number of the call that stored it and the id it was stored under, and each payload the number of its call.
-/

namespace Turbovec.Python

open Dict

/-! ## What a search relies on -/

/-- A row of the index: the call that stored it, the id it was stored under, and its vector. -/
structure Stamped (ι V : Type) where
  call : ℕ
  id : ι
  vector : V

/-- A store whose rows and payloads carry the number of their call. -/
abbrev StampedStore (ι V D : Type) : Type := Store ι (Stamped ι V) (ℕ × D)

section

variable {ι V D : Type} [DecidableEq ι]

/-- The rows of call number `n`. -/
def stamp (n : ℕ) (rows : List (ι × D × V)) : List (ι × (ℕ × D) × Stamped ι V) :=
  rows.map fun r => (r.1, (n, r.2.1), ⟨n, r.1, r.2.2⟩)

/-- A row's handle resolves to nothing but the id the row was stored under, and to no payload but that of its call;
and no two rows resolve to one id. -/
structure Searchable (s : StampedStore ι V D) : Prop where
  own : ∀ h v i, s.index.rows.lookup h = some v → s.u64ToStr.lookup h = some i →
    i = v.id ∧ ∀ doc, s.docs.lookup i = some doc → doc.1 = v.call
  once : ∀ h h' i, h ∈ s.index.rows → h' ∈ s.index.rows → s.u64ToStr.lookup h = some i →
    s.u64ToStr.lookup h' = some i → h = h'

/-- A store between two calls. Its index can hold rows that no map knows: those of the slices that were committed
before an exception. -/
structure Quiet (s : StampedStore ι V D) : Prop where
  maps : s.Maps
  below : ∀ h ∈ s.index.rows, h ≤ s.nextU64
  searchable : Searchable s

theorem quiet_new (dim : Option ℕ) : Quiet (Store.new ι (Stamped ι V) (ℕ × D) dim) := by
  refine ⟨(Store.consistent_new dim).maps, fun h hh => ?_, fun h v i hv => ?_, fun h h' i hh => ?_⟩
  · exact absurd hh Finmap.notMem_empty
  · cases hv
  · exact absurd hh Finmap.notMem_empty

variable {s t : StampedStore ι V D} {m : Micro ι (Stamped ι V) (ℕ × D)} {ms : List (Micro ι (Stamped ι V) (ℕ × D))}

/-- Every row, reverse entry and payload of the first store is one of the second. -/
structure Within (t s : StampedStore ι V D) : Prop where
  rows : ∀ h v, t.index.rows.lookup h = some v → s.index.rows.lookup h = some v
  rev : ∀ h i, t.u64ToStr.lookup h = some i → s.u64ToStr.lookup h = some i
  docs : ∀ i doc, t.docs.lookup i = some doc → s.docs.lookup i = some doc

theorem Within.mem_rows (ht : Within t s) {h : ℕ} (hh : h ∈ t.index.rows) : h ∈ s.index.rows := by
  obtain ⟨v, hv⟩ := Dict.mem_iff_lookup.mp hh
  exact Dict.mem_iff_lookup.mpr ⟨v, ht.rows h v hv⟩

theorem Searchable.within (hs : Searchable s) (ht : Within t s) : Searchable t := by
  refine ⟨fun h v i hv hi => ?_, fun h h' i hh hh' hi hi' => ?_⟩
  · obtain ⟨hid, hdoc⟩ := hs.own h v i (ht.rows h v hv) (ht.rev h i hi)
    exact ⟨hid, fun doc hd => hdoc doc (ht.docs i doc hd)⟩
  · exact hs.once h h' i (ht.mem_rows hh) (ht.mem_rows hh') (ht.rev h i hi) (ht.rev h' i hi')

/-- A step that adds nothing a search reads. -/
def Micro.Shrinks : Micro ι (Stamped ι V) (ℕ × D) → Prop
  | .setRev _ _ | .setDoc _ _ | .restoreDoc _ _ | .addSlice _ _ => False
  | _ => True

theorem Micro.Shrinks.within (hm : m.Shrinks) (s : StampedStore ι V D) : Within (m.apply s) s := by
  have hrefl : Within s s := ⟨fun _ _ h => h, fun _ _ h => h, fun _ _ h => h⟩
  cases m with
  | removeIndex h => exact ⟨fun _ _ hv => (of_lookup_erase hv).2, hrefl.rev, hrefl.docs⟩
  | dropIndex i h => exact ⟨fun _ _ hv => (of_lookup_erase hv).2, hrefl.rev, hrefl.docs⟩
  | popRev h => exact ⟨hrefl.rows, fun _ _ hv => (of_lookup_erase hv).2, hrefl.docs⟩
  | popDoc i => exact ⟨hrefl.rows, hrefl.rev, fun _ _ hv => (of_lookup_erase hv).2⟩
  | resetIndex => exact ⟨fun _ _ hv => (by cases hv), hrefl.rev, hrefl.docs⟩
  | resetRev => exact ⟨hrefl.rows, fun _ _ hv => (by cases hv), hrefl.docs⟩
  | resetDocs => exact ⟨hrefl.rows, hrefl.rev, fun _ _ hv => (by cases hv)⟩
  | issue n => exact ⟨hrefl.rows, hrefl.rev, hrefl.docs⟩
  | setStr i h => exact ⟨hrefl.rows, hrefl.rev, hrefl.docs⟩
  | popStr i => exact ⟨hrefl.rows, hrefl.rev, hrefl.docs⟩
  | resetStr => exact ⟨hrefl.rows, hrefl.rev, hrefl.docs⟩
  | resetNext => exact ⟨hrefl.rows, hrefl.rev, hrefl.docs⟩
  | _ => exact hm.elim

theorem run_within (hms : ∀ m ∈ ms, m.Shrinks) (s : StampedStore ι V D) : Within (run s ms) s := by
  induction ms generalizing s with
  | nil => exact ⟨fun _ _ h => h, fun _ _ h => h, fun _ _ h => h⟩
  | cons m ms ih =>
    have hrest := ih (fun a ha => hms a (List.mem_cons_of_mem _ ha)) (m.apply s)
    have hfirst := (hms m List.mem_cons_self).within s
    exact ⟨fun h v hv => hfirst.rows h v (hrest.rows h v hv), fun h i hi => hfirst.rev h i (hrest.rev h i hi),
      fun i doc hd => hfirst.docs i doc (hrest.docs i doc hd)⟩

/-! ## Windows -/

/-- The steps left stand inside the window of an upsert: the payload of a stored id is overwritten already, and the
replaced row is still to be dropped, or the old payload to be put back. -/
def WindowOpen (ms : List (Micro ι (Stamped ι V) (ℕ × D))) : Prop :=
  ∃ i, (∀ doc, .setDoc i doc ∉ ms) ∧ ((∃ h, .dropIndex i h ∈ ms) ∨ ∃ doc, .restoreDoc i doc ∈ ms)

/-- Wherever a run of steps is cut, a window is open or the store is one a search can rely on. -/
def Covered (s : StampedStore ι V D) (ms : List (Micro ι (Stamped ι V) (ℕ × D))) : Prop :=
  ∀ a b, ms = a ++ b → WindowOpen b ∨ Searchable (run s a)

theorem Covered.head (h : Covered s ms) : WindowOpen ms ∨ Searchable s := h [] ms rfl

theorem Covered.step (h : Covered s (m :: ms)) : Covered (m.apply s) ms := by
  intro a b hab
  exact h (m :: a) b (by rw [hab, List.cons_append])

theorem Covered.cons (hs : Searchable s) (h : Covered (m.apply s) ms) : Covered s (m :: ms) := by
  intro a b hab
  cases a with
  | nil => exact Or.inr hs
  | cons m' a =>
    rw [List.cons_append, List.cons.injEq] at hab
    rw [← hab.1]
    exact h a b hab.2

theorem Covered.append {x y : List (Micro ι (Stamped ι V) (ℕ × D))}
    (hx : ∀ a b, x = a ++ b → WindowOpen (b ++ y) ∨ Searchable (run s a)) (hy : Covered (run s x) y) :
    Covered s (x ++ y) := by
  intro a b hab
  rcases List.append_eq_append_iff.mp hab with ⟨c, rfl, hc⟩ | ⟨c, hc, rfl⟩
  · rw [run_append]
    exact hy c b hc
  · exact hx a c hc

theorem Covered.of_shrinks (hs : Searchable s) (hms : ∀ m ∈ ms, m.Shrinks) : Covered s ms := by
  rintro a b rfl
  exact Or.inr (hs.within (run_within (fun m hm => hms m (List.mem_append_left _ hm)) s))

/-! ## An addition -/

variable {l : Rows ι (Stamped ι V) (ℕ × D)} {old : List (ι × ℕ × ℕ × D)} {n next : ℕ}

/-! ### The maps -/

/-- A step of the loop that fills the maps, its handles above a bound. -/
def Micro.Fills (n : ℕ) : Micro ι (Stamped ι V) (ℕ × D) → Prop
  | .setStr _ _ | .setDoc _ _ => True
  | .setRev h _ => n < h
  | _ => False

/-- The id whose payload a step of the loop sets. -/
def Micro.docId : Micro ι (Stamped ι V) (ℕ × D) → Option ι
  | .setDoc i _ => some i
  | _ => none

theorem run_fills (hms : ∀ m ∈ ms, m.Fills n) (s : StampedStore ι V D) :
    (run s ms).index = s.index ∧ (∀ h ≤ n, (run s ms).u64ToStr.lookup h = s.u64ToStr.lookup h) ∧
      ∀ i, some i ∉ ms.map Micro.docId → (run s ms).docs.lookup i = s.docs.lookup i := by
  induction ms generalizing s with
  | nil => exact ⟨rfl, fun _ _ => rfl, fun _ _ => rfl⟩
  | cons m ms ih =>
    obtain ⟨hix, hrev, hdocs⟩ := ih (fun a ha => hms a (List.mem_cons_of_mem _ ha)) (m.apply s)
    have hm := hms m List.mem_cons_self
    have hrun : run s (m :: ms) = run (m.apply s) ms := rfl
    rw [hrun]
    cases m with
    | setStr i h => exact ⟨hix, hrev, fun j hj => hdocs j fun hmem => hj (List.mem_cons_of_mem _ hmem)⟩
    | setRev h i =>
      refine ⟨hix, fun h' hh' => ?_, fun j hj => hdocs j fun hmem => hj (List.mem_cons_of_mem _ hmem)⟩
      have hne : h' ≠ h := by
        change n < h at hm
        omega
      rw [hrev h' hh']
      exact Finmap.lookup_insert_of_ne _ hne
    | setDoc i doc =>
      refine ⟨hix, hrev, fun j hj => ?_⟩
      rw [List.map_cons, List.mem_cons, not_or] at hj
      rw [hdocs j hj.2]
      exact Finmap.lookup_insert_of_ne _ fun hji => hj.1 (congrArg some hji)
    | _ => exact hm.elim

omit [DecidableEq ι] in
theorem fills_mapSteps (hfresh : ∀ p ∈ l, n < p.2) : ∀ m ∈ l.flatMap mapSteps, m.Fills n := by
  intro m hm
  obtain ⟨p, hp, hmp⟩ := List.mem_flatMap.mp hm
  simp only [mapSteps, List.mem_cons, List.not_mem_nil, or_false] at hmp
  rcases hmp with rfl | rfl | rfl
  · trivial
  · exact hfresh p hp
  · trivial

omit [DecidableEq ι] in
theorem docId_mapSteps (l : Rows ι (Stamped ι V) (ℕ × D)) :
    (l.flatMap mapSteps).filterMap Micro.docId = l.map fun p => p.1.1 := by
  induction l with
  | nil => rfl
  | cons p l ih =>
    rw [List.flatMap_cons, List.filterMap_append, ih]
    rfl

/-- The maps are filled: no row of a replaced id is searched before its payload is overwritten, and from there on its
window is open. -/
theorem covered_mapSteps {T : List (Micro ι (Stamped ι V) (ℕ × D))} (hs : Searchable s)
    (hinv : Inverse s.strToU64 s.u64ToStr) (hbelow : ∀ h ∈ s.index.rows, h ≤ n) (hids : (l.map fun p => p.1.1).Nodup)
    (hfresh : ∀ p ∈ l, n < p.2) (hset : ∀ i doc, .setDoc i doc ∉ T)
    (hclose : ∀ i ∈ l.map fun p => p.1.1, i ∈ s.strToU64 → (∃ h, .dropIndex i h ∈ T) ∨ ∃ doc, .restoreDoc i doc ∈ T) :
    ∀ a b, l.flatMap mapSteps = a ++ b → WindowOpen (b ++ T) ∨ Searchable (run s a) := by
  intro a b hab
  have hdocs := docId_mapSteps l
  rw [hab, List.filterMap_append] at hdocs
  by_cases hover : ∃ i, some i ∈ a.map Micro.docId ∧ i ∈ s.strToU64
  · obtain ⟨i, hia, hstr⟩ := hover
    have hia' : i ∈ a.filterMap Micro.docId := by
      obtain ⟨m, hm, hmi⟩ := List.mem_map.mp hia
      exact List.mem_filterMap.mpr ⟨m, hm, hmi⟩
    have hmem : i ∈ l.map fun p => p.1.1 := hdocs ▸ List.mem_append_left _ hia'
    refine Or.inl ⟨i, fun doc hdoc => ?_, ?_⟩
    · rcases List.mem_append.mp hdoc with hb | hT
      · rw [← hdocs, List.nodup_append] at hids
        exact hids.2.2 i hia' i (List.mem_filterMap.mpr ⟨_, hb, rfl⟩) rfl
      · exact hset i doc hT
    · rcases hclose i hmem hstr with ⟨h, hh⟩ | ⟨doc, hdoc⟩
      · exact Or.inl ⟨h, List.mem_append_right _ hh⟩
      · exact Or.inr ⟨doc, List.mem_append_right _ hdoc⟩
  · have hfills : ∀ m ∈ a, m.Fills n := fun m hm =>
      fills_mapSteps hfresh m (hab ▸ List.mem_append_left _ hm)
    obtain ⟨hix, hrev, hkept⟩ := run_fills hfills s
    refine Or.inr ⟨fun h v i hv hi => ?_, fun h h' i hh hh' hi hi' => ?_⟩
    · rw [hix] at hv
      rw [hrev h (hbelow h (Dict.mem_iff_lookup.mpr ⟨v, hv⟩))] at hi
      have hstr : i ∈ s.strToU64 := Dict.mem_iff_lookup.mpr ⟨h, (hinv i h).mpr hi⟩
      rw [hkept i fun hia => hover ⟨i, hia, hstr⟩]
      exact hs.own h v i hv hi
    · rw [hix] at hh hh'
      rw [hrev h (hbelow h hh)] at hi
      rw [hrev h' (hbelow h' hh')] at hi'
      exact hs.once h h' i hh hh' hi hi'

/-! ### The slices -/

/-- The batch is one call's: its rows and payloads carry the call's number and its ids. -/
def OfCall (n : ℕ) (l : Rows ι (Stamped ι V) (ℕ × D)) : Prop :=
  ∀ p ∈ l, p.1.2.2.call = n ∧ p.1.2.2.id = p.1.1 ∧ p.1.2.1.1 = n

/-- Over the filled maps a search can rely on the rows of the batch, and on the rows of before whose ids the batch
leaves alone. -/
theorem Quiet.searchable_added (hs : Quiet s) (next : ℕ) (hl : s.Batch l) (hn : OfCall n l)
    (hrows : ∀ h v, t.index.rows.lookup h = some v →
      (s.index.rows.lookup h = some v ∧ ∀ i ∈ l.map fun p => p.1.1, s.strToU64.lookup i ≠ some h) ∨
        ∃ p ∈ l, p.2 = h ∧ p.1.2.2 = v)
    (hrev : ∀ h i, t.u64ToStr.lookup h = some i → (s.mapped l next).u64ToStr.lookup h = some i)
    (hdocs : ∀ i doc, t.docs.lookup i = some doc → (s.mapped l next).docs.lookup i = some doc) : Searchable t := by
  have hfst : (l.map fun p => (p.1.1, p.1.2.1)).map Prod.fst = l.map fun p => p.1.1 := by
    rw [List.map_map]; rfl
  -- A row of before resolves as before, to an id the batch leaves alone.
  have hkept : ∀ h i, h ∈ s.index.rows → (∀ j ∈ l.map fun p => p.1.1, s.strToU64.lookup j ≠ some h) →
      t.u64ToStr.lookup h = some i → s.u64ToStr.lookup h = some i ∧ i ∉ l.map fun p => p.1.1 := by
    intro h i hh hnot hi
    rcases (Store.mapped_u64ToStr hl).mp (hrev h i hi) with ⟨p, hp, rfl, -⟩ | ⟨-, hi⟩
    · have h1 := hs.below _ hh
      have h2 := hl.fresh p hp
      omega
    · exact ⟨hi, fun hmem => hnot i hmem ((hs.maps.inverse i h).mpr hi)⟩
  have hadded : ∀ p ∈ l, ∀ i, t.u64ToStr.lookup p.2 = some i → i = p.1.1 := by
    intro p hp i hi
    rcases (Store.mapped_u64ToStr hl).mp (hrev _ i hi) with ⟨q, hq, hqp, rfl⟩ | ⟨hnot, -⟩
    · rw [List.inj_on_of_nodup_map hl.handles hq hp hqp]
    · exact absurd (List.mem_map_of_mem hp) hnot
  have hcases : ∀ h ∈ t.index.rows, (h ∈ s.index.rows ∧ ∀ i ∈ l.map fun p => p.1.1, s.strToU64.lookup i ≠ some h) ∨
      ∃ p ∈ l, p.2 = h := by
    intro h hh
    obtain ⟨v, hv⟩ := Dict.mem_iff_lookup.mp hh
    rcases hrows h v hv with ⟨hold, hnot⟩ | ⟨p, hp, hph, -⟩
    · exact Or.inl ⟨Dict.mem_iff_lookup.mpr ⟨v, hold⟩, hnot⟩
    · exact Or.inr ⟨p, hp, hph⟩
  refine ⟨fun h v i hv hi => ?_, fun h h' i hh hh' hi hi' => ?_⟩
  · rcases hrows h v hv with ⟨hold, hnot⟩ | ⟨p, hp, rfl, rfl⟩
    · obtain ⟨hi, hni⟩ := hkept h i (Dict.mem_iff_lookup.mpr ⟨v, hold⟩) hnot hi
      obtain ⟨hid, hdoc⟩ := hs.searchable.own h v i hold hi
      refine ⟨hid, fun doc hd => hdoc doc ?_⟩
      have hd := hdocs i doc hd
      unfold Store.mapped at hd
      dsimp only at hd
      rwa [lookup_setAll_of_notMem (hfst ▸ hni)] at hd
    · obtain ⟨hcall, hid, hnum⟩ := hn p hp
      have hip := hadded p hp i hi
      refine ⟨hip.trans hid.symm, fun doc hd => ?_⟩
      have hd := hdocs i doc hd
      unfold Store.mapped at hd
      dsimp only at hd
      have hmem : (i, p.1.2.1) ∈ l.map fun p => (p.1.1, p.1.2.1) := List.mem_map.mpr ⟨p, hp, by rw [hip]⟩
      rw [lookup_setAll_of_mem (hfst ▸ hl.ids) hmem, Option.some.injEq] at hd
      rw [← hd, hnum, hcall]
  · rcases hcases h hh with ⟨hold, hnot⟩ | ⟨p, hp, rfl⟩ <;> rcases hcases h' hh' with ⟨hold', hnot'⟩ | ⟨q, hq, rfl⟩
    · exact hs.searchable.once h h' i hold hold' (hkept h i hold hnot hi).1 (hkept h' i hold' hnot' hi').1
    · exact absurd (List.mem_map.mpr ⟨q, hq, (hadded q hq i hi').symm⟩) (hkept h i hold hnot hi).2
    · exact absurd (List.mem_map.mpr ⟨p, hp, (hadded p hp i hi).symm⟩) (hkept h' i hold' hnot' hi').2
    · have hpq : p.1.1 = q.1.1 := (hadded p hp i hi).symm.trans (hadded q hq i hi')
      rw [List.inj_on_of_nodup_map hl.ids hp hq hpq]

/-! ### The replaced vectors and the unwinding -/

theorem lookup_run_dropIndex (hms : ∀ m ∈ ms, m.Shrinks) {i : ι} {h : ℕ} (hin : .dropIndex i h ∈ ms)
    (s : StampedStore ι V D) : (run s ms).index.rows.lookup h = none := by
  induction ms generalizing s with
  | nil => cases hin
  | cons m ms ih =>
    have hms' : ∀ a ∈ ms, a.Shrinks := fun a ha => hms a (List.mem_cons_of_mem _ ha)
    rcases List.mem_cons.mp hin with rfl | hin
    · have hnone : (Micro.apply s (.dropIndex i h)).index.rows.lookup h = none := Finmap.lookup_erase h _
      by_contra hne
      obtain ⟨v, hv⟩ := Option.ne_none_iff_exists'.mp hne
      have := (run_within hms' (Micro.apply s (.dropIndex i h))).rows h v hv
      rw [hnone] at this
      cases this
    · exact ih hms' hin _

omit [DecidableEq ι] in
theorem shrinks_dropSteps (old : List (ι × ℕ × ℕ × D)) :
    ∀ m ∈ (old.flatMap dropSteps : List (Micro ι (Stamped ι V) (ℕ × D))), m.Shrinks := by
  intro m hm
  obtain ⟨o, -, hmo⟩ := List.mem_flatMap.mp hm
  simp only [dropSteps, List.mem_cons, List.not_mem_nil, or_false] at hmo
  rcases hmo with rfl | rfl <;> trivial

theorem shrinks_unwindSteps (str : Dict ι ℕ) (rows : List (ι × ℕ)) :
    ∀ m ∈ (unwindSteps str rows : List (Micro ι (Stamped ι V) (ℕ × D))), m.Shrinks := by
  induction rows generalizing str with
  | nil => intro m hm; cases hm
  | cons p rows ih =>
    obtain ⟨i, h⟩ := p
    intro m hm
    unfold unwindSteps at hm
    split at hm
    · simp only [List.mem_cons] at hm
      rcases hm with rfl | rfl | rfl | hm
      · trivial
      · trivial
      · trivial
      · exact ih _ m hm
    · rcases List.mem_cons.mp hm with rfl | hm
      · trivial
      · exact ih _ m hm

omit [DecidableEq ι] in
theorem setDoc_not_shrinks (hms : ∀ m ∈ ms, m.Shrinks) (i : ι) (doc : ℕ × D) : .setDoc i doc ∉ ms :=
  fun hmem => hms _ hmem

omit [DecidableEq ι] in
theorem setDoc_not_restored (i : ι) (doc : ℕ × D) :
    (.setDoc i doc : Micro ι (Stamped ι V) (ℕ × D)) ∉ old.flatMap restoreSteps := by
  intro hmem
  obtain ⟨o, -, ho⟩ := List.mem_flatMap.mp hmem
  simp [restoreSteps] at ho

theorem Store.old_index (s : StampedStore ι V D) (ix : Index (Stamped ι V)) (ids : List ι) :
    Store.old { s with index := ix } ids = s.old ids := by
  induction ids with
  | nil => rfl
  | cons i ids ih =>
    unfold Store.old
    rw [ih]

/-- The maps unwound and the old entries put back, whatever the index took. -/
theorem Quiet.run_unwound (hs : Quiet s) (next : ℕ) (hl : s.Batch l) (hold : s.old (l.map fun p => p.1.1) = some old)
    (ix : Index (Stamped ι V)) :
    run { s.mapped l next with index := ix } (unwindSteps (s.mapped l next).strToU64 (l.map fun p => (p.1.1, p.2)) ++
      old.flatMap restoreSteps) = { s with index := ix, nextU64 := next } := by
  have hmaps : Store.Maps { s with index := ix } := hs.maps.advance le_rfl ix
  have hl' : Store.Batch { s with index := ix } l := ⟨hl.ids, hl.handles, hl.fresh⟩
  have hunwind := hmaps.unwind next hl' ((Store.old_index s ix _).trans hold)
  rw [run_append, run_restoreSteps]
  change old.foldl Store.restoreRow (run (Store.mapped { s with index := ix } l next)
    (unwindSteps (Store.mapped { s with index := ix } l next).strToU64 _)) = _
  rw [run_unwindSteps, hunwind]

/-- The store after an addition that raised: what its slices took is in no map. -/
theorem Quiet.unwound (hs : Quiet s) (hl : s.Batch l) (hnext : ∀ p ∈ l, p.2 ≤ next) (hle : s.nextU64 ≤ next)
    {ix : Index (Stamped ι V)} (hix : ∀ h v, ix.rows.lookup h = some v →
      s.index.rows.lookup h = some v ∨ ∃ p ∈ l, p.2 = h ∧ p.1.2.2 = v) :
    Quiet { s with index := ix, nextU64 := next } := by
  -- A row of the batch resolves to nothing.
  have hrev : ∀ h v i, ix.rows.lookup h = some v → s.u64ToStr.lookup h = some i → s.index.rows.lookup h = some v := by
    intro h v i hv hi
    rcases hix h v hv with hv | ⟨p, hp, rfl, -⟩
    · exact hv
    · have h1 := hs.maps.watermark i _ ((hs.maps.inverse i _).mpr hi)
      have h2 := hl.fresh p hp
      omega
  have hmem : ∀ h i, h ∈ ix.rows → s.u64ToStr.lookup h = some i → h ∈ s.index.rows := by
    intro h i hh hi
    obtain ⟨v, hv⟩ := Dict.mem_iff_lookup.mp hh
    exact Dict.mem_iff_lookup.mpr ⟨v, hrev h v i hv hi⟩
  refine ⟨hs.maps.advance hle ix, fun h hh => ?_, fun h v i hv hi => ?_, fun h h' i hh hh' hi hi' => ?_⟩
  · obtain ⟨v, hv⟩ := Dict.mem_iff_lookup.mp hh
    rcases hix h v hv with hv | ⟨p, hp, rfl, -⟩
    · exact (hs.below h (Dict.mem_iff_lookup.mpr ⟨v, hv⟩)).trans hle
    · exact hnext p hp
  · exact hs.searchable.own h v i (hrev h v i hv hi) hi
  · exact hs.searchable.once h h' i (hmem h i hh hi) (hmem h' i hh' hi') hi hi'

/-- The steps after the slices of an addition that raised. -/
theorem Quiet.covered_unwinding (hs : Quiet s) (hl : s.Batch l) (hold : s.old (l.map fun p => p.1.1) = some old)
    (hnext : ∀ p ∈ l, p.2 ≤ next) (hle : s.nextU64 ≤ next) {ix : Index (Stamped ι V)}
    (hix : ∀ h v, ix.rows.lookup h = some v → s.index.rows.lookup h = some v ∨ ∃ p ∈ l, p.2 = h ∧ p.1.2.2 = v)
    (hfirst : old = [] → Searchable { s.mapped l next with index := ix }) :
    Covered { s.mapped l next with index := ix } (unwindSteps (s.mapped l next).strToU64
      (l.map fun p => (p.1.1, p.2)) ++ old.flatMap restoreSteps) := by
  have hshrinks : ∀ m ∈ (unwindSteps (s.mapped l next).strToU64 (l.map fun p => (p.1.1, p.2)) :
      List (Micro ι (Stamped ι V) (ℕ × D))), m.Shrinks := shrinks_unwindSteps _ _
  rcases List.eq_nil_or_concat old with rfl | ⟨old', o, rfl⟩
  · rw [List.flatMap_nil, List.append_nil]
    exact Covered.of_shrinks (hfirst rfl) hshrinks
  · intro a b hab
    by_cases hb : ∃ i doc, .restoreDoc i doc ∈ b
    · obtain ⟨i, doc, hdoc⟩ := hb
      refine Or.inl ⟨i, fun doc' hset => ?_, Or.inr ⟨doc, hdoc⟩⟩
      rcases List.mem_append.mp (hab ▸ List.mem_append_right a hset) with hmem | hmem
      · exact setDoc_not_shrinks hshrinks i doc' hmem
      · exact setDoc_not_restored i doc' hmem
    · -- The last step puts a payload back, so none is left.
      have hnil : b = [] := by
        by_contra hne
        have hlast := congrArg List.getLast? hab
        rw [List.concat_eq_append, List.flatMap_append, List.flatMap_singleton,
          List.getLast?_append_of_ne_nil _ hne] at hlast
        have hend : b.getLast? = some (.restoreDoc o.1 o.2.2) := by
          rw [← hlast]
          simp [restoreSteps]
        exact hb ⟨_, _, List.mem_of_getLast? hend⟩
      rw [hnil, List.append_nil] at hab
      rw [← hab, hs.run_unwound next hl hold ix]
      exact Or.inr (hs.unwound hl hnext hle hix).searchable

/-- The steps after the slices of an addition that returns. -/
theorem Quiet.covered_drops (hs : Quiet s) (hl : s.Batch l) (hn : OfCall n l)
    (hold : s.old (l.map fun p => p.1.1) = some old) {ix : Index (Stamped ι V)}
    (hix : ∀ h v, ix.rows.lookup h = some v → s.index.rows.lookup h = some v ∨ ∃ p ∈ l, p.2 = h ∧ p.1.2.2 = v) :
    Covered { s.mapped l next with index := ix } (old.flatMap dropSteps) := by
  intro a b hab
  by_cases hb : ∃ i h, .dropIndex i h ∈ b
  · obtain ⟨i, h, hh⟩ := hb
    refine Or.inl ⟨i, fun doc hset => ?_, Or.inl ⟨h, hh⟩⟩
    exact setDoc_not_shrinks (shrinks_dropSteps old) i doc (hab ▸ List.mem_append_right a hset)
  · have hshrinks : ∀ m ∈ a, m.Shrinks := fun m hm => shrinks_dropSteps old m (hab ▸ List.mem_append_left b hm)
    have hwithin := run_within hshrinks { s.mapped l next with index := ix }
    refine Or.inr (hs.searchable_added next hl hn (fun h v hv => ?_) hwithin.rev hwithin.docs)
    rcases hix h v (hwithin.rows h v hv) with hv' | hp
    · refine Or.inl ⟨hv', fun i hi hstr => ?_⟩
      obtain ⟨o, ho, hoh⟩ := List.mem_map.mp ((Store.mem_oldHandles hs.maps hold).mpr ⟨i, hi, hstr⟩)
      have hdrop : .dropIndex o.1 o.2.1 ∈ a ++ b :=
        hab ▸ List.mem_flatMap.mpr ⟨o, ho, List.mem_cons_self⟩
      rcases List.mem_append.mp hdrop with hdrop | hdrop
      · rw [← hoh, lookup_run_dropIndex hshrinks hdrop] at hv
        cases hv
      · exact hb ⟨_, _, hdrop⟩
    · exact Or.inr hp

theorem Quiet.replaced (hs : Quiet s) (hl : s.Batch l) (hn : OfCall n l)
    (hold : s.old (l.map fun p => p.1.1) = some old) (hnext : ∀ p ∈ l, p.2 ≤ next) (hle : s.nextU64 ≤ next)
    {ix : Index (Stamped ι V)}
    (hix : ∀ h v, ix.rows.lookup h = some v → s.index.rows.lookup h = some v ∨ ∃ p ∈ l, p.2 = h ∧ p.1.2.2 = v) :
    Quiet (run { s.mapped l next with index := ix } (old.flatMap dropSteps)) := by
  have hwithin := run_within (shrinks_dropSteps old) { s.mapped l next with index := ix }
  have hnotWindow : ¬ WindowOpen ([] : List (Micro ι (Stamped ι V) (ℕ × D))) := by
    rintro ⟨i, -, ⟨h, hh⟩ | ⟨doc, hdoc⟩⟩
    · cases hh
    · cases hdoc
  refine ⟨?_, fun h hh => ?_, ?_⟩
  · rw [run_dropSteps]
    exact hs.maps.replace next hl hold hnext hle ix
  · have hnum : (run { s.mapped l next with index := ix } (old.flatMap dropSteps)).nextU64 = next := by
      rw [run_dropSteps, dropRows_eq]
      rfl
    rw [hnum]
    obtain ⟨v, hv⟩ := Dict.mem_iff_lookup.mp hh
    rcases hix h v (hwithin.rows h v hv) with hv | ⟨p, hp, rfl, -⟩
    · exact (hs.below h (Dict.mem_iff_lookup.mpr ⟨v, hv⟩)).trans hle
    · exact hnext p hp
  · exact (hs.covered_drops hl hn hold hix (old.flatMap dropSteps) [] (List.append_nil _).symm).resolve_left hnotWindow

/-! ### The slices of a batch and what follows them -/

/-- The slices have rows of the batch only. -/
def SlicesOf (l : Rows ι (Stamped ι V) (ℕ × D)) (parts : List (List (ℕ × Stamped ι V))) : Prop :=
  ∀ part ∈ parts, ∀ q ∈ part, q ∈ l.map fun p => (p.2, p.1.2.2)

omit [DecidableEq ι] in
theorem SlicesOf.lookup {parts : List (List (ℕ × Stamped ι V))} (hp : SlicesOf l parts) {d h : ℕ} {v : Stamped ι V}
    (hv : (parts.foldl (Index.grow d) s.index).rows.lookup h = some v) :
    s.index.rows.lookup h = some v ∨ ∃ p ∈ l, p.2 = h ∧ p.1.2.2 = v := by
  rcases lookup_grow hv with hv | ⟨part, hpart, hmem⟩
  · exact Or.inl hv
  · obtain ⟨p, hpl, heq⟩ := List.mem_map.mp (hp part hpart _ hmem)
    exact Or.inr ⟨p, hpl, congrArg Prod.fst heq, congrArg Prod.snd heq⟩

/-- Between the slices of an addition that replaces nothing, a search can rely on what it meets. -/
theorem Quiet.searchable_slices (hs : Quiet s) (next : ℕ) (hl : s.Batch l) (hn : OfCall n l)
    (hold : s.old (l.map fun p => p.1.1) = some []) {parts : List (List (ℕ × Stamped ι V))} (hp : SlicesOf l parts)
    (d : ℕ) : Searchable { s.mapped l next with index := parts.foldl (Index.grow d) s.index } := by
  refine hs.searchable_added next hl hn (fun h v hv => ?_) (fun _ _ h => h) fun _ _ h => h
  rcases hp.lookup hv with hv | hv
  · refine Or.inl ⟨hv, fun i hi hstr => ?_⟩
    have hmem := (Store.mem_oldHandles hs.maps hold).mpr ⟨i, hi, hstr⟩
    cases hmem
  · exact Or.inr hv

/-- What follows the slices: the unwinding of an addition that raised, or the end of the replaced rows. -/
def tailSteps (str : Dict ι ℕ) (rows : List (ι × ℕ)) (old : List (ι × ℕ × ℕ × D)) (raised : Bool) :
    List (Micro ι (Stamped ι V) (ℕ × D)) :=
  if raised then unwindSteps str rows ++ old.flatMap restoreSteps else old.flatMap dropSteps

theorem setDoc_not_tail (str : Dict ι ℕ) (rows : List (ι × ℕ)) (raised : Bool) (i : ι) (doc : ℕ × D) :
    (.setDoc i doc : Micro ι (Stamped ι V) (ℕ × D)) ∉ tailSteps str rows old raised := by
  intro hmem
  unfold tailSteps at hmem
  split at hmem
  · rcases List.mem_append.mp hmem with hmem | hmem
    · exact setDoc_not_shrinks (shrinks_unwindSteps _ _) i doc hmem
    · exact setDoc_not_restored i doc hmem
  · exact setDoc_not_shrinks (shrinks_dropSteps old) i doc hmem

/-- The window of every replaced id is closed by what follows the slices. -/
theorem tail_closes (str : Dict ι ℕ) (rows : List (ι × ℕ)) (raised : Bool) {o : ι × ℕ × ℕ × D} (ho : o ∈ old) :
    (∃ h, (.dropIndex o.1 h : Micro ι (Stamped ι V) (ℕ × D)) ∈ tailSteps str rows old raised) ∨
      ∃ doc, (.restoreDoc o.1 doc : Micro ι (Stamped ι V) (ℕ × D)) ∈ tailSteps str rows old raised := by
  unfold tailSteps
  split
  · exact Or.inr ⟨o.2.2, List.mem_append_right _ (List.mem_flatMap.mpr ⟨o, ho, by simp [restoreSteps]⟩)⟩
  · exact Or.inl ⟨o.2.1, List.mem_flatMap.mpr ⟨o, ho, List.mem_cons_self⟩⟩

/-- Over the slices the window of a replaced id is open. -/
theorem Quiet.covered_slices (hs : Quiet s) (hl : s.Batch l) (hn : OfCall n l)
    (hold : s.old (l.map fun p => p.1.1) = some old) {parts : List (List (ℕ × Stamped ι V))} (hp : SlicesOf l parts)
    (d : ℕ) (str : Dict ι ℕ) (rows : List (ι × ℕ)) (raised : Bool) :
    ∀ a b, parts.map (.addSlice d) = a ++ b →
      WindowOpen (b ++ tailSteps str rows old raised) ∨ Searchable (run (s.mapped l next) a) := by
  intro a b hab
  cases old with
  | nil =>
    obtain ⟨taken, left, hsplit, rfl, -⟩ := List.map_eq_append_iff.mp hab
    rw [run_addSlice]
    exact Or.inr (hs.searchable_slices next hl hn hold (fun part hpart =>
      hp part (hsplit ▸ List.mem_append_left _ hpart)) d)
  | cons o old =>
    refine Or.inl ⟨o.1, fun doc hmem => ?_, ?_⟩
    · rcases List.mem_append.mp hmem with hmem | hmem
      · obtain ⟨part, -, hpart⟩ := List.mem_map.mp (hab ▸ List.mem_append_right a hmem)
        cases hpart
      · exact setDoc_not_tail str rows raised o.1 doc hmem
    · rcases tail_closes str rows raised (List.mem_cons_self (a := o) (l := old)) with ⟨h, hdrop⟩ | ⟨doc, hres⟩
      · exact Or.inl ⟨h, List.mem_append_right _ hdrop⟩
      · exact Or.inr ⟨doc, List.mem_append_right _ hres⟩

/-- What follows the slices leaves the store quiet. -/
theorem Quiet.tail (hs : Quiet s) (hl : s.Batch l) (hn : OfCall n l) (hold : s.old (l.map fun p => p.1.1) = some old)
    (hnext : ∀ p ∈ l, p.2 ≤ next) (hle : s.nextU64 ≤ next) {parts : List (List (ℕ × Stamped ι V))}
    (hp : SlicesOf l parts) (d : ℕ) (raised : Bool) :
    let t : StampedStore ι V D := { s.mapped l next with index := parts.foldl (Index.grow d) s.index }
    let rest := tailSteps (s.mapped l next).strToU64 (l.map fun p => (p.1.1, p.2)) old raised
    Covered t rest ∧ Quiet (run t rest) := by
  intro t rest
  have hall := fun h v hv => hp.lookup (s := s) (d := d) (h := h) (v := v) hv
  unfold rest tailSteps
  split
  · refine ⟨hs.covered_unwinding hl hold hnext hle hall fun hnil => ?_, ?_⟩
    · exact hs.searchable_slices next hl hn (hnil ▸ hold) hp d
    · exact (hs.run_unwound next hl hold (parts.foldl (Index.grow d) s.index)).symm ▸ hs.unwound hl hnext hle hall
  · exact ⟨hs.covered_drops hl hn hold hall, hs.replaced hl hn hold hnext hle hall⟩

/-! ### The whole addition -/

/-- A search can rely on every store along an addition but where a window is open, and the store is quiet after it. -/
theorem Quiet.storeSteps (hs : Quiet s) (K : Kernel (Stamped ι V)) (cs d n : ℕ) {rows : List (ι × D × V)}
    (hnd : (rows.map fun r => r.1).Nodup) (stop : Option ℕ) :
    Covered s (storeSteps K cs d s (stamp n rows) stop) ∧
      Quiet (run s (storeSteps K cs d s (stamp n rows) stop)) := by
  have hids : (stamp n rows).map (fun r => r.1) = rows.map fun r => r.1 := by
    unfold stamp
    rw [List.map_map]
    rfl
  have hnil : Covered s [] := Covered.of_shrinks hs.searchable fun m hm => (by cases hm)
  unfold Python.storeSteps
  split
  · exact ⟨hnil, hs⟩
  dsimp only
  have hissue : Quiet (Micro.apply s (.issue (stamp n rows).length)) :=
    ⟨hs.maps.advance (Nat.le_add_right _ _) s.index, fun h hh => (hs.below h hh).trans (Nat.le_add_right _ _),
      hs.searchable.own, hs.searchable.once⟩
  -- An addition refused after its handles were issued has changed nothing a search meets.
  have hone : Covered s [.issue (stamp n rows).length] := Covered.of_shrinks hs.searchable fun m hm => by
    rw [List.mem_singleton.mp hm]
    trivial
  split
  · exact ⟨hone, hissue⟩
  cases hold : s.old ((stamp n rows).map fun r => r.1) with
  | none => exact ⟨hone, hissue⟩
  | some old =>
    dsimp only
    have hlen : (s.handles (stamp n rows).length).length = (stamp n rows).length := List.length_range'
    obtain ⟨hb, hnext⟩ := s.batch_of_rows (hids ▸ hnd)
    obtain ⟨hfst, -, hzip, hbatch⟩ := rows_zip_handles (stamp n rows) _ hlen
    have hcall : OfCall n ((stamp n rows).zip (s.handles (stamp n rows).length)) := by
      intro p hp
      have hmem : p.1 ∈ stamp n rows := (List.of_mem_zip hp).1
      unfold stamp at hmem
      obtain ⟨r, -, hr⟩ := List.mem_map.mp hmem
      rw [← hr]
      exact ⟨rfl, rfl, rfl⟩
    rw [hzip, hbatch]
    set l := (stamp n rows).zip (s.handles (stamp n rows).length) with hl
    set next := s.nextU64 + (stamp n rows).length with hnexteq
    rw [← hfst] at hold
    set parts := takenParts K cs d s.index (l.map fun p => (p.2, p.1.2.2)) stop with hparts
    have hle : s.nextU64 ≤ next := Nat.le_add_right _ _
    have hslices : SlicesOf l parts.1 := fun part hpart q hq => mem_of_takenParts hpart hq
    have hmapped : run (Micro.apply s (.issue (stamp n rows).length)) (l.flatMap mapSteps) = s.mapped l next := by
      rw [run_mapSteps, mapRows_eq]
      rfl
    have hclose {o : ι × ℕ × ℕ × D} (ho : o ∈ old) :=
      tail_closes (V := V) (setAll s.strToU64 (l.map fun p => (p.1.1, p.2))) (l.map fun p => (p.1.1, p.2)) parts.2 ho
    change Covered s (.issue _ :: (l.flatMap mapSteps ++ (parts.1.map (.addSlice d) ++ tailSteps _ _ old parts.2))) ∧
      Quiet (run s (.issue _ :: (l.flatMap mapSteps ++ (parts.1.map (.addSlice d) ++ tailSteps _ _ old parts.2))))
    have hmaps : ∀ a b, l.flatMap mapSteps = a ++ b → WindowOpen (b ++ (parts.1.map (.addSlice d) ++
        tailSteps (setAll s.strToU64 (l.map fun p => (p.1.1, p.2))) (l.map fun p => (p.1.1, p.2)) old parts.2)) ∨
          Searchable (run (Micro.apply s (.issue (stamp n rows).length)) a) := by
      refine covered_mapSteps hissue.searchable hissue.maps.inverse hs.below hb.ids hb.fresh
        (fun i doc hmem => ?_) fun i hi hstr => ?_
      · rcases List.mem_append.mp hmem with hmem | hmem
        · obtain ⟨part, -, hpart⟩ := List.mem_map.mp hmem
          cases hpart
        · exact setDoc_not_tail _ _ _ i doc hmem
      · obtain ⟨h, hh⟩ := Dict.mem_iff_lookup.mp hstr
        obtain ⟨doc, hdoc⟩ := Dict.mem_iff_lookup.mp ((hs.maps.payload i).mpr hstr)
        rcases hclose ((Store.mem_old (o := (i, h, doc)) hold).mpr ⟨hi, hh, hdoc⟩) with ⟨h', hdrop⟩ | ⟨doc', hres⟩
        · exact Or.inl ⟨h', List.mem_append_right _ hdrop⟩
        · exact Or.inr ⟨doc', List.mem_append_right _ hres⟩
    obtain ⟨hcovered, hquiet⟩ := hs.tail hb hcall hold hnext hle hslices d parts.2
    refine ⟨Covered.cons hs.searchable (Covered.append hmaps ?_), ?_⟩
    · rw [hmapped]
      refine Covered.append (hs.covered_slices hb hcall hold hslices d _ _ parts.2) ?_
      rw [run_addSlice]
      exact hcovered
    · change Quiet (run (Micro.apply s (.issue (stamp n rows).length)) _)
      rw [run_append, run_append, hmapped, run_addSlice]
      exact hquiet

/-! ## A deletion and a reset -/

theorem Quiet.removeSteps (hs : Quiet s) (i : ι) : Quiet (run s (removeSteps s i)) := by
  have hshrinks : ∀ m ∈ Python.removeSteps s i, m.Shrinks := by
    unfold Python.removeSteps
    split
    · intro m hm
      cases hm
    · intro m hm
      simp only [List.mem_cons, List.not_mem_nil, or_false] at hm
      rcases hm with rfl | rfl | rfl | rfl <;> trivial
  have hwithin := run_within hshrinks s
  have hnext : (s.removeId i).nextU64 = s.nextU64 := by
    unfold Store.removeId
    split <;> rfl
  refine ⟨?_, fun h hh => ?_, hs.searchable.within hwithin⟩
  · rw [run_removeSteps]
    exact hs.maps.removeId i
  · rw [run_removeSteps, hnext]
    exact hs.below h (hwithin.mem_rows hh)

theorem shrinks_deleteSteps (s : StampedStore ι V D) (ids : List ι) : ∀ m ∈ deleteSteps s ids, m.Shrinks := by
  induction ids generalizing s with
  | nil => intro m hm; cases hm
  | cons i ids ih =>
    intro m hm
    unfold deleteSteps at hm
    rcases List.mem_append.mp hm with hm | hm
    · unfold Python.removeSteps at hm
      split at hm
      · cases hm
      · simp only [List.mem_cons, List.not_mem_nil, or_false] at hm
        rcases hm with rfl | rfl | rfl | rfl <;> trivial
    · exact ih _ m hm

theorem Quiet.deleteSteps (hs : Quiet s) (ids : List ι) :
    Covered s (deleteSteps s ids) ∧ Quiet (run s (deleteSteps s ids)) := by
  refine ⟨Covered.of_shrinks hs.searchable (shrinks_deleteSteps s ids), ?_⟩
  induction ids generalizing s with
  | nil => exact hs
  | cons i ids ih =>
    have hone := hs.removeSteps i
    unfold Python.deleteSteps
    rw [run_append]
    rw [run_removeSteps] at hone ⊢
    exact ih hone

theorem Quiet.clearSteps (hs : Quiet s) : Covered s clearSteps ∧ Quiet (run s clearSteps) := by
  refine ⟨Covered.of_shrinks hs.searchable fun m hm => ?_, quiet_new none⟩
  simp only [Python.clearSteps, List.mem_cons, List.not_mem_nil, or_false] at hm
  rcases hm with rfl | rfl | rfl | rfl | rfl <;> trivial

end

/-! ## The system -/

section

variable {ι V D : Type} [DecidableEq ι]

/-- A write: an addition with its dimension and the exception that comes before a slice of its index add, if any; a
deletion; or the reset of LlamaIndex. -/
inductive Write (ι V D : Type) where
  | add (d : ℕ) (rows : List (ι × D × V)) (stop : Option ℕ)
  | delete (ids : List ι)
  | clear

section variable (K : Kernel (Stamped ι V)) (fw : Framework) (cs : ℕ)

/-- The steps of write number `n`, begun on this store. -/
def Write.steps (n : ℕ) (s : StampedStore ι V D) : Write ι V D → List (Micro ι (Stamped ι V) (ℕ × D))
  | .add d rows stop =>
    if rows.isEmpty then []
    else
      match fw with
      | .langchain => storeSteps K cs d s (stamp n (keepLast rows)) stop
      | .llamaIndex => if (rows.map Prod.fst).Nodup then storeSteps K cs d s (stamp n rows) stop else []
  | .delete ids => deleteSteps s ids
  | .clear => match fw with
    | .langchain => []
    | .llamaIndex => clearSteps

/-- A search under way: the hits still to be looked up, the id of the one that is resolved and whose payload is still
to be read, and what it has found. -/
structure Reading (ι V D : Type) where
  hits : List (ℕ × Stamped ι V)
  current : Option (ι × Stamped ι V)
  found : List (ι × (ℕ × D) × Stamped ι V)

/-- The store, the steps left of the write that holds its lock, the writes begun, and the search. -/
structure Shared (ι V D : Type) where
  store : StampedStore ι V D
  pending : List (Micro ι (Stamped ι V) (ℕ × D))
  writes : ℕ
  reading : Option (Reading ι V D)

/-- One step of a write or of the search. The search asks the index once, for rows of distinct handles, and
then looks up one hit after the other, skipping those that no longer resolve. -/
inductive Shared.Step : Shared ι V D → Shared ι V D → Prop
  | begin (w : Shared ι V D) (op : Write ι V D) (hw : w.pending = []) : Step w
      { w with pending := op.steps K fw cs w.writes w.store, writes := w.writes + 1 }
  | write (w : Shared ι V D) (m : Micro ι (Stamped ι V) (ℕ × D))
      (ms : List (Micro ι (Stamped ι V) (ℕ × D))) (hw : w.pending = m :: ms) : Step w
      { w with store := m.apply w.store, pending := ms }
  | search (w : Shared ι V D) (hits : List (ℕ × Stamped ι V)) (hw : w.reading = none)
      (hnd : (hits.map Prod.fst).Nodup) (hin : ∀ p ∈ hits, w.store.index.rows.lookup p.1 = some p.2) :
      Step w { w with reading := some ⟨hits, none, []⟩ }
  | lookupId (w : Shared ι V D) (p : ℕ × Stamped ι V) (hits : List (ℕ × Stamped ι V))
      (found : List (ι × (ℕ × D) × Stamped ι V)) (hw : w.reading = some ⟨p :: hits, none, found⟩) :
      Step w { w with reading := some ⟨hits, (w.store.u64ToStr.lookup p.1).map (·, p.2), found⟩ }
  | lookupDoc (w : Shared ι V D) (i : ι) (v : Stamped ι V) (hits : List (ℕ × Stamped ι V))
      (found : List (ι × (ℕ × D) × Stamped ι V)) (hw : w.reading = some ⟨hits, some (i, v), found⟩) :
      Step w { w with reading := some ⟨hits, none,
        found ++ ((w.store.docs.lookup i).map fun doc => (i, doc, v)).toList⟩ }

/-- The step sets no map entry that the search has still to look up: no reverse entry of a hit, and no payload of an
id that a hit resolves to. -/
def Micro.Spares (s : StampedStore ι V D) (r : Reading ι V D) : Micro ι (Stamped ι V) (ℕ × D) → Prop
  | .setRev h _ => ∀ p ∈ r.hits, p.1 ≠ h
  | .setDoc i _ | .restoreDoc i _ =>
    (∀ p ∈ r.hits, s.u64ToStr.lookup p.1 ≠ some i) ∧ ∀ c, r.current = some c → c.1 ≠ i
  | _ => True

/-- The step meets a search well: no search runs inside a window, and no write sets a map entry that a search has
still to look up. -/
def Undisturbed (w w' : Shared ι V D) : Prop :=
  (w.reading = none → w'.reading ≠ none → ¬ WindowOpen w.pending) ∧
  ∀ r m ms, w.reading = some r → w.pending = m :: ms → w'.pending = ms → m.Spares w.store r

/-- Runs from a new store whose steps all meet the condition. -/
inductive Shared.Reached : Shared ι V D → Prop
  | new (dim : Option ℕ) : Shared.Reached ⟨Store.new _ _ _ dim, [], 0, none⟩
  | step {w w' : Shared ι V D} (h : Shared.Reached w) (hstep : Shared.Step K fw cs w w')
      (hw : Undisturbed w w') : Shared.Reached w'

end

/-! ## The search -/

variable {s : StampedStore ι V D} {K : Kernel (Stamped ι V)} {fw : Framework} {cs : ℕ} {w w' : Shared ι V D}
  {r : Reading ι V D}

theorem Quiet.steps (hs : Quiet s) (K : Kernel (Stamped ι V)) (fw : Framework) (cs n : ℕ) (op : Write ι V D) :
    Covered s (op.steps K fw cs n s) ∧ Quiet (run s (op.steps K fw cs n s)) := by
  have hnil : Covered s [] ∧ Quiet (run s []) := ⟨Covered.of_shrinks hs.searchable fun m hm => (by cases hm), hs⟩
  cases op with
  | add d rows stop =>
    unfold Write.steps
    dsimp only
    split
    · exact hnil
    · cases fw with
      | langchain => exact hs.storeSteps K cs d n (nodup_keepLast rows) stop
      | llamaIndex =>
        dsimp only
        split
        next hnd => exact hs.storeSteps K cs d n hnd stop
        next => exact hnil
  | delete ids => exact hs.deleteSteps ids
  | clear =>
    cases fw with
    | langchain => exact hnil
    | llamaIndex => exact hs.clearSteps

/-- A step that spares the search leaves the entries it has still to look up, or takes them out. -/
theorem Micro.Spares.lookups {m : Micro ι (Stamped ι V) (ℕ × D)} (hm : m.Spares s r) :
    (∀ p ∈ r.hits, ∀ i, (m.apply s).u64ToStr.lookup p.1 = some i → s.u64ToStr.lookup p.1 = some i) ∧
      ∀ i, ((∃ p ∈ r.hits, s.u64ToStr.lookup p.1 = some i) ∨ ∃ c, r.current = some c ∧ c.1 = i) →
        ∀ doc, (m.apply s).docs.lookup i = some doc → s.docs.lookup i = some doc := by
  have hput : ∀ {i : ι} {new : ℕ × D}, ((∀ p ∈ r.hits, s.u64ToStr.lookup p.1 ≠ some i) ∧
      ∀ c, r.current = some c → c.1 ≠ i) → ∀ j, ((∃ p ∈ r.hits, s.u64ToStr.lookup p.1 = some j) ∨
      ∃ c, r.current = some c ∧ c.1 = j) → ∀ doc, (s.docs.insert i new).lookup j = some doc →
      s.docs.lookup j = some doc := by
    intro i new hspare j hj doc hd
    have hne : j ≠ i := by
      rintro rfl
      rcases hj with ⟨p, hp, hpj⟩ | ⟨c, hc, hcj⟩
      · exact hspare.1 p hp hpj
      · exact hspare.2 c hc hcj
    rwa [Finmap.lookup_insert_of_ne _ hne] at hd
  cases m with
  | setRev h i =>
    refine ⟨fun p hp j hj => ?_, fun _ _ _ hd => hd⟩
    rwa [← Finmap.lookup_insert_of_ne s.u64ToStr (hm p hp)]
  | setDoc i doc => exact ⟨fun _ _ _ hi => hi, hput hm⟩
  | restoreDoc i doc => exact ⟨fun _ _ _ hi => hi, hput hm⟩
  | addSlice d batch => exact ⟨fun _ _ _ hi => hi, fun _ _ _ hd => hd⟩
  | _ =>
    refine ⟨fun p _ i hi => (Micro.Shrinks.within ?_ s).rev _ _ hi, fun i _ doc hd =>
      (Micro.Shrinks.within ?_ s).docs _ _ hd⟩ <;> trivial

/-- A search on its way: what a hit resolves to is its own id with no payload but that of its own call, what was found
is matched, and no two of the ids found and to be found are the same. -/
structure Reading.Good (s : StampedStore ι V D) (r : Reading ι V D) : Prop where
  hits : ∀ p ∈ r.hits, ∀ i, s.u64ToStr.lookup p.1 = some i →
    i = p.2.id ∧ ∀ doc, s.docs.lookup i = some doc → doc.1 = p.2.call
  current : ∀ c, r.current = some c → c.1 = c.2.id ∧ ∀ doc, s.docs.lookup c.1 = some doc → doc.1 = c.2.call
  found : ∀ x ∈ r.found, x.1 = x.2.2.id ∧ x.2.1.1 = x.2.2.call
  nodup : (r.found.map (fun x => x.1) ++ (r.current.toList.map (fun c => c.1) ++
    r.hits.filterMap fun p => s.u64ToStr.lookup p.1)).Nodup

theorem filterMap_sublist {α β : Type} {f g : α → Option β} {l : List α}
    (h : ∀ a ∈ l, ∀ b, g a = some b → f a = some b) : (l.filterMap g).Sublist (l.filterMap f) := by
  induction l with
  | nil => exact List.Sublist.slnil
  | cons a l ih =>
    have hrest := ih fun b hb => h b (List.mem_cons_of_mem _ hb)
    rw [List.filterMap_cons, List.filterMap_cons]
    cases hg : g a with
    | none =>
      cases f a with
      | none => exact hrest
      | some b => exact hrest.cons b
    | some b =>
      rw [h a List.mem_cons_self b hg]
      exact hrest.cons_cons b

theorem Reading.Good.write (hr : r.Good s) {m : Micro ι (Stamped ι V) (ℕ × D)} (hm : m.Spares s r) :
    r.Good (m.apply s) := by
  obtain ⟨hrev, hdocs⟩ := hm.lookups
  refine ⟨fun p hp i hi => ?_, fun c hc => ?_, hr.found, hr.nodup.sublist ?_⟩
  · have hi := hrev p hp i hi
    obtain ⟨hid, hdoc⟩ := hr.hits p hp i hi
    exact ⟨hid, fun doc hd => hdoc doc (hdocs i (Or.inl ⟨p, hp, hi⟩) doc hd)⟩
  · obtain ⟨hid, hdoc⟩ := hr.current c hc
    exact ⟨hid, fun doc hd => hdoc doc (hdocs c.1 (Or.inr ⟨c, hc, rfl⟩) doc hd)⟩
  · exact (List.Sublist.refl _).append ((List.Sublist.refl _).append (filterMap_sublist hrev))

/-- The search as the index answers it, outside every window. -/
theorem Reading.good_search (hs : Searchable s) {hits : List (ℕ × Stamped ι V)}
    (hnd : (hits.map Prod.fst).Nodup) (hin : ∀ p ∈ hits, s.index.rows.lookup p.1 = some p.2) :
    Reading.Good s ⟨hits, none, []⟩ := by
  refine ⟨fun p hp i hi => hs.own p.1 p.2 i (hin p hp) hi, fun c hc => ?_, fun x hx => ?_, ?_⟩
  · cases hc
  · cases hx
  · change (hits.filterMap fun p => s.u64ToStr.lookup p.1).Nodup
    induction hits with
    | nil => exact List.nodup_nil
    | cons p hits ih =>
      rw [List.map_cons, List.nodup_cons] at hnd
      have hrest := ih hnd.2 fun q hq => hin q (List.mem_cons_of_mem _ hq)
      rw [List.filterMap_cons]
      cases hp : s.u64ToStr.lookup p.1 with
      | none => exact hrest
      | some i =>
        refine List.nodup_cons.mpr ⟨fun hmem => ?_, hrest⟩
        obtain ⟨q, hq, hqi⟩ := List.mem_filterMap.mp hmem
        have hpq : p.1 = q.1 := hs.once p.1 q.1 i (Dict.mem_iff_lookup.mpr ⟨_, hin p List.mem_cons_self⟩)
          (Dict.mem_iff_lookup.mpr ⟨_, hin q (List.mem_cons_of_mem _ hq)⟩) hp hqi
        exact hnd.1 (hpq ▸ List.mem_map_of_mem hq)

/-- What holds of the system at every step. -/
structure Shared.Good (w : Shared ι V D) : Prop where
  covered : Covered w.store w.pending
  quiet : Quiet (run w.store w.pending)
  reading : ∀ r, w.reading = some r → r.Good w.store

theorem Shared.Good.step (hw : w.Good) (hstep : Shared.Step K fw cs w w') (hu : Undisturbed w w') :
    w'.Good := by
  cases hstep with
  | begin op hp =>
    -- No step is left of the write before, so its window is shut.
    have hquiet : Quiet w.store := by
      have h := hw.quiet
      rw [hp] at h
      exact h
    obtain ⟨hcovered, hend⟩ := hquiet.steps K fw cs w.writes op
    exact ⟨hcovered, hend, hw.reading⟩
  | write m ms hp =>
    have hcovered := hw.covered
    have hquiet := hw.quiet
    rw [hp] at hcovered hquiet
    exact ⟨hcovered.step, hquiet, fun r hr => (hw.reading r hr).write (hu.2 r m ms hr hp rfl)⟩
  | search hits hr hnd hin =>
    refine ⟨hw.covered, hw.quiet, fun r hr' => ?_⟩
    rw [← Option.some.inj hr']
    -- Outside every window the rows resolve to their own ids and payloads.
    have hsearchable := hw.covered.head.resolve_left (hu.1 hr (Option.some_ne_none _))
    exact Reading.good_search hsearchable hnd hin
  | lookupId p hits found hr =>
    refine ⟨hw.covered, hw.quiet, fun r hr' => ?_⟩
    have hgood := hw.reading _ hr
    rw [← Option.some.inj hr']
    refine ⟨fun q hq => hgood.hits q (List.mem_cons_of_mem _ hq), fun c hc => ?_, hgood.found, ?_⟩
    · obtain ⟨i, hi, rfl⟩ := Option.map_eq_some_iff.mp hc
      exact hgood.hits p List.mem_cons_self i hi
    · have hnd := hgood.nodup
      rw [List.filterMap_cons] at hnd
      -- An id not found is passed over.
      cases hlook : w.store.u64ToStr.lookup p.1 with
      | none => rwa [hlook] at hnd
      | some i => rwa [hlook] at hnd
  | lookupDoc i v hits found hr =>
    refine ⟨hw.covered, hw.quiet, fun r hr' => ?_⟩
    have hgood := hw.reading _ hr
    rw [← Option.some.inj hr']
    have hnd := hgood.nodup
    cases hlook : w.store.docs.lookup i with
    | none =>
      rw [Option.map_none, Option.toList_none, List.append_nil]
      refine ⟨hgood.hits, fun c hc => (by cases hc), hgood.found, hnd.sublist ?_⟩
      exact (List.Sublist.refl _).append (List.sublist_cons_self _ _)
    | some doc =>
      obtain ⟨hid, hdoc⟩ := hgood.current (i, v) rfl
      refine ⟨hgood.hits, fun c hc => (by cases hc), fun x hx => ?_, ?_⟩
      · rcases List.mem_append.mp hx with hx | hx
        · exact hgood.found x hx
        · rw [List.mem_singleton.mp hx]
          exact ⟨hid, hdoc doc hlook⟩
      · rw [List.map_append, List.append_assoc]
        exact hnd

/-- What a search returns is matched, in every run that leaves it undisturbed: each payload was written by
the call that stored the row it is paired with, under that row's id, and no id is returned twice. -/
theorem search_matches (h : Shared.Reached K fw cs w) (hr : w.reading = some r) :
    (∀ x ∈ r.found, x.1 = x.2.2.id ∧ x.2.1.1 = x.2.2.call) ∧ (r.found.map fun x => x.1).Nodup := by
  have hgood : w.Good := by
    clear hr
    induction h with
    | new dim =>
      refine ⟨Covered.of_shrinks (quiet_new dim).searchable fun m hm => (by cases hm), quiet_new dim, fun r hr => ?_⟩
      cases hr
    | step _ hstep hu ih => exact ih.step hstep hu
  have hread := hgood.reading r hr
  exact ⟨hread.found, (List.nodup_append.mp hread.nodup).1⟩

end

section Runs

/-- A kernel that takes every row. -/
def takesAll : Kernel (Stamped ℕ ℕ) := ⟨fun _ => true, fun _ => true⟩

/-- A new store of numbered documents. -/
def emptyShared : Shared ℕ ℕ ℕ := ⟨Store.new _ _ _ none, [], 0, none⟩

/-- One document found while the addition of another fills its maps, raises and unwinds them. -/
theorem search_matches_beside : ∃ w r, Shared.Reached takesAll .langchain 1000 w ∧ w.reading = some r ∧
    r.found = [(0, (0, 10), ⟨0, 0, 10⟩)] ∧ w.pending = [.popStr 1, .popDoc 1] ∧
    (∀ x ∈ r.found, x.1 = x.2.2.id ∧ x.2.1.1 = x.2.2.call) ∧ (r.found.map fun x => x.1).Nodup := by
  have quiet : ∀ {w w' : Shared ℕ ℕ ℕ}, Shared.Reached takesAll .langchain 1000 w →
      Shared.Step takesAll .langchain 1000 w w' → w.reading = none → w'.reading = none →
      Shared.Reached takesAll .langchain 1000 w' := by
    intro w w' h hstep hr hr'
    refine h.step hstep ⟨fun _ hr'' => absurd hr' hr'', fun r _ _ hr'' _ _ => ?_⟩
    rw [hr] at hr''
    cases hr''
  have read : ∀ {w w' : Shared ℕ ℕ ℕ}, Shared.Reached takesAll .langchain 1000 w →
      Shared.Step takesAll .langchain 1000 w w' → w.reading ≠ none → w'.pending = w.pending →
      Shared.Reached takesAll .langchain 1000 w' := by
    intro w w' h hstep hr hp
    refine h.step hstep ⟨fun hr' => absurd hr' hr, fun r m ms _ hm hms => ?_⟩
    rw [hp, hm] at hms
    exact absurd hms (List.cons_ne_self m ms)
  have h0 : Shared.Reached takesAll .langchain 1000 emptyShared := .new none
  have h1 := quiet h0 (.begin _ (.add 8 [(0, 10, 10)] none) rfl) rfl rfl
  have h2 := quiet h1 (.write _ _ _ rfl) rfl rfl
  have h3 := quiet h2 (.write _ _ _ rfl) rfl rfl
  have h4 := quiet h3 (.write _ _ _ rfl) rfl rfl
  have h5 := quiet h4 (.write _ _ _ rfl) rfl rfl
  have h6 := quiet h5 (.write _ _ _ rfl) rfl rfl
  -- The second addition is interrupted before its only slice.
  have h7 := quiet h6 (.begin _ (.add 8 [(1, 20, 20)] (some 0)) rfl) rfl rfl
  have h8 := quiet h7 (.write _ _ _ rfl) rfl rfl
  have h9 := quiet h8 (.write _ _ _ rfl) rfl rfl
  have h10 := h9.step (.search _ [(1, ⟨0, 0, 10⟩)] rfl (by decide) (by
    intro p hp
    rw [List.mem_singleton.mp hp]
    rfl)) (by
    refine ⟨fun _ _ => ?_, fun r m ms hr => (by cases hr)⟩
    show ¬ WindowOpen [.setRev 2 1, .setDoc 1 (1, 20), .popRev 2, .popStr 1, .popDoc 1]
    rintro ⟨i, -, ⟨h, hh⟩ | ⟨doc, hdoc⟩⟩
    · simp at hh
    · simp at hdoc)
  have h11 := h10.step (.write _ _ _ rfl) (by
    refine ⟨fun hr => (by cases hr), fun r m ms hr hp _ => ?_⟩
    rw [← (List.cons.inj hp).1, ← Option.some.inj hr]
    intro p hp
    rw [List.mem_singleton.mp hp]
    decide)
  have h12 := h11.step (.write _ _ _ rfl) (by
    refine ⟨fun hr => (by cases hr), fun r m ms hr hp _ => ?_⟩
    rw [← (List.cons.inj hp).1, ← Option.some.inj hr]
    refine ⟨fun p hp => ?_, fun c hc => (by cases hc)⟩
    rw [List.mem_singleton.mp hp]
    decide)
  have h13 := read h12 (.lookupId _ _ _ _ rfl) (Option.some_ne_none _) rfl
  have h14 := h13.step (.write _ _ _ rfl) (by
    refine ⟨fun hr => (by cases hr), fun r m ms hr hp _ => ?_⟩
    rw [← (List.cons.inj hp).1]
    trivial)
  have h15 := read h14 (.lookupDoc _ _ _ _ _ rfl) (Option.some_ne_none _) rfl
  exact ⟨_, _, h15, rfl, rfl, rfl, search_matches h15 rfl⟩

/-- A search while a document is replaced, after its payload and before its vector: the new payload comes
back with the old vector. -/
theorem search_mismatched : ∃ w r, Relation.ReflTransGen (Shared.Step takesAll .langchain 1000) emptyShared w ∧
    w.reading = some r ∧ ∃ x ∈ r.found, x.2.1.1 ≠ x.2.2.call := by
  have h0 : Relation.ReflTransGen (Shared.Step takesAll .langchain 1000) emptyShared emptyShared := .refl
  have h1 := h0.tail (.begin _ (.add 8 [(0, 10, 10)] none) rfl)
  have h2 := h1.tail (.write _ _ _ rfl)
  have h3 := h2.tail (.write _ _ _ rfl)
  have h4 := h3.tail (.write _ _ _ rfl)
  have h5 := h4.tail (.write _ _ _ rfl)
  have h6 := h5.tail (.write _ _ _ rfl)
  have h7 := h6.tail (.begin _ (.add 8 [(0, 20, 20)] none) rfl)
  have h8 := h7.tail (.write _ _ _ rfl)
  have h9 := h8.tail (.write _ _ _ rfl)
  have h10 := h9.tail (.write _ _ _ rfl)
  have h11 := h10.tail (.write _ _ _ rfl)
  have h12 := h11.tail (.search _ [(1, ⟨0, 0, 10⟩)] rfl (by decide) (by
    intro p hp
    rw [List.mem_singleton.mp hp]
    rfl))
  have h13 := h12.tail (.lookupId _ _ _ _ rfl)
  have h14 := h13.tail (.lookupDoc _ _ _ _ _ rfl)
  exact ⟨_, _, h14, rfl, (0, (1, 20), ⟨0, 0, 10⟩), List.mem_singleton.mpr rfl, by decide⟩

end Runs

end Turbovec.Python
