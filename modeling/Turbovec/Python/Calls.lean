import Turbovec.Python.Haystack

/-!
# Runs of calls on the stores

Every store reached by additions, upserts and deletions, each returning or raising, is consistent, as long
as no exception lands between two slices of one index add and a Haystack document's metadata can be copied; and a
call that raised out of the index add has undone itself.
-/

namespace Turbovec.Python

open Dict

/-! ## LangChain and LlamaIndex -/

/-- A call on a LangChain or LlamaIndex store, with the exception that comes before a slice of its index
add, if any. -/
inductive Call (ι V D : Type) where
  | add (d : ℕ) (rows : List (ι × D × V)) (stop : Option ℕ)
  | delete (ids : List ι)

section

variable {ι V D : Type} [DecidableEq ι]

def Store.call (K : Kernel V) (fw : Framework) (cs : ℕ) (s : Store ι V D) :
    Call ι V D → Store ι V D × Outcome
  | .add d rows stop => s.add K fw cs d rows stop
  | .delete ids => (s.delete ids, .returned)

/-- No exception lands between two slices of the call's index add. -/
def Call.Whole (K : Kernel V) (fw : Framework) (cs : ℕ) : Call ι V D → Prop
  | .add d rows stop => ¬ LandsBetween K cs d ((keptRows fw rows).map fun r => r.2.2) stop
  | .delete _ => True

/-- The stores a new store can become by calls that are not cut between slices. -/
inductive Store.Reached (K : Kernel V) (fw : Framework) (cs : ℕ) : Store ι V D → Prop
  | new (dim : Option ℕ) : Store.Reached K fw cs (Store.new ι V D dim)
  | call {s : Store ι V D} (c : Call ι V D) (hs : Store.Reached K fw cs s) (hc : c.Whole K fw cs) :
      Store.Reached K fw cs (s.call K fw cs c).1

variable {K : Kernel V} {fw : Framework} {cs : ℕ} {s : Store ι V D}

/-- One call, returning or raising. -/
theorem Store.Consistent.call (hs : s.Consistent) {c : Call ι V D} (hc : c.Whole K fw cs) :
    s.AllOrNothing (s.call K fw cs c) := by
  cases c with
  | add d rows stop => exact hs.add hc
  | delete ids =>
    have hnext : (s.delete ids).nextU64 = s.nextU64 := by
      clear hs hc
      unfold Store.delete
      induction ids generalizing s with
      | nil => rfl
      | cons i ids ih =>
        rw [List.foldl_cons, ih]
        unfold Store.removeId
        split <;> rfl
    exact ⟨hnext.ge, hs.delete ids, fun h => absurd rfl h⟩

theorem Store.Reached.consistent (h : Store.Reached K fw cs s) : s.Consistent := by
  induction h with
  | new dim => exact Store.consistent_new dim
  | call c _ hc ih => exact (ih.call hc).2.1

end

/-! ## Haystack -/

/-- A call on a Haystack store. -/
inductive DocCall (ι V D : Type) where
  | write (policy : DuplicatePolicy) (docs : List (ι × D × Option V)) (stop : Option ℕ)
  | delete (ids : List ι)

section

variable {ι V D : Type} [DecidableEq ι]

def DocStore.call (K : DocKernel V D) (cs : ℕ) (s : DocStore ι V D) :
    DocCall ι V D → DocStore ι V D × Outcome
  | .write policy docs stop => s.writeDocuments K cs policy docs stop
  | .delete ids => (s.deleteDocuments ids, .returned)

/-- The metadata of the documents to commit can be copied, and no exception lands between two slices of the call's
index add; under `FAIL` every add is one slice. -/
def DocCall.Whole (K : DocKernel V D) (cs : ℕ) (s : DocStore ι V D) : DocCall ι V D → Prop
  | .write policy docs stop =>
    (policy = .fail → ∀ doc ∈ docs, K.metaOk doc.2.1 = true) ∧
    (policy ≠ .fail → ∀ toWrite toRemove, s.resolve policy docs [] [] = some (toWrite, toRemove) →
      (∀ r ∈ toWrite, K.metaOk r.2.1 = true) ∧
      ∀ d, ¬ LandsBetween K.toKernel cs d (toWrite.map fun r => r.2.2) stop)
  | .delete _ => True

/-- The stores a new store can become by calls that are not cut between slices. -/
inductive DocStore.Reached (K : DocKernel V D) (cs : ℕ) : DocStore ι V D → Prop
  | new : DocStore.Reached K cs (DocStore.new ι V D)
  | call {s : DocStore ι V D} (c : DocCall ι V D) (hs : DocStore.Reached K cs s) (hc : c.Whole K cs s) :
      DocStore.Reached K cs (s.call K cs c).1

variable {K : DocKernel V D} {cs : ℕ} {s : DocStore ι V D}

/-- A policy other than `fail` resolves the whole batch first and then commits it. -/
theorem DocStore.writeDocuments_eq {policy : DuplicatePolicy} (hpolicy : policy ≠ .fail)
    {docs : List (ι × D × Option V)} {stop : Option ℕ} : s.writeDocuments K cs policy docs stop =
      match s.resolve policy docs [] [] with
      | none => (s, .refused)
      | some (toWrite, toRemove) =>
        if toWrite.isEmpty then (s, .returned) else s.commitBatch K cs toWrite toRemove stop := by
  cases policy with
  | fail => exact absurd rfl hpolicy
  | skip => rfl
  | overwrite => rfl

theorem DocStore.Consistent.writeDocuments (hs : s.Consistent) {policy : DuplicatePolicy}
    (hpolicy : policy ≠ .fail) {docs : List (ι × D × Option V)} {stop : Option ℕ}
    (hc : DocCall.Whole K cs s (.write policy docs stop)) :
    s.AllOrNothing (s.writeDocuments K cs policy docs stop) := by
  rw [DocStore.writeDocuments_eq hpolicy]
  cases hres : s.resolve policy docs [] [] with
  | none => exact hs.allOrNothing_self _
  | some p =>
    obtain ⟨toWrite, toRemove⟩ := p
    dsimp only
    split
    · exact hs.allOrNothing_self _
    · obtain ⟨hmeta, hwhole⟩ := hc.2 hpolicy toWrite toRemove hres
      exact hs.commitBatch K cs stop (DocStore.resolve_replaces hpolicy hres ⟨List.nodup_nil, by simp⟩) hmeta hwhole

theorem DocStore.Consistent.call (hs : s.Consistent) {c : DocCall ι V D} (hc : c.Whole K cs s) :
    (s.call K cs c).1.Consistent := by
  cases c with
  | write policy docs stop =>
    by_cases hp : policy = .fail
    · subst hp
      exact (hs.writeFail docs (hc.1 rfl) stop).1
    · exact (hs.writeDocuments hp hc).2.1
  | delete ids => exact hs.deleteDocuments ids

theorem DocStore.Reached.consistent (h : DocStore.Reached K cs s) : s.Consistent := by
  induction h with
  | new => exact DocStore.consistent_new
  | call c _ hc ih => exact ih.call hc

end

/-! ## All the stores -/

/-- Every store reached is consistent and passes the checks of its load, and a call that raises leaves it
as it was but for the handles used up. Under Haystack's `FAIL`, whose documents are commits of their own, that is so
where only the first document can raise, and else the documents before the one that ended the call stay. -/
theorem stores_consistent {ι V D : Type} [DecidableEq ι] :
    (∀ (K : Kernel V) (fw : Framework) (cs : ℕ) (s : Store ι V D), Store.Reached K fw cs s →
      s.Consistent ∧ checkLoaded fw s.index s.sidecar = .ok () ∧
      ∀ c : Call ι V D, c.Whole K fw cs → (s.call K fw cs c).2 ≠ .returned →
        (s.call K fw cs c).1 = { s with nextU64 := (s.call K fw cs c).1.nextU64 }) ∧
    (∀ (K : DocKernel V D) (cs : ℕ) (s : DocStore ι V D), DocStore.Reached K cs s →
      s.Consistent ∧ checkDocLoaded s.index s.sidecar = .ok () ∧
      ∀ (policy : DuplicatePolicy) (docs : List (ι × D × Option V)) (stop : Option ℕ),
        DocCall.Whole K cs s (.write policy docs stop) →
        (policy ≠ .fail → (s.writeDocuments K cs policy docs stop).2 ≠ .returned →
          (s.writeDocuments K cs policy docs stop).1 =
            { s with nextU64 := (s.writeDocuments K cs policy docs stop).1.nextU64 }) ∧
        (policy = .fail → FirstOnly K docs stop → (s.writeDocuments K cs policy docs stop).2 = .raised →
          (s.writeDocuments K cs policy docs stop).1 =
            { s with nextU64 := (s.writeDocuments K cs policy docs stop).1.nextU64 }) ∧
        (policy = .fail → (s.writeDocuments K cs policy docs stop).2 ≠ .returned → ∃ n t,
          s.writeDocuments K cs policy (docs.take n) stop = (t, .returned) ∧
          (s.writeDocuments K cs policy docs stop).1 =
            { t with nextU64 := (s.writeDocuments K cs policy docs stop).1.nextU64 })) := by
  refine ⟨fun K fw cs s hs => ?_, fun K cs s hs => ?_⟩
  · have hcons := hs.consistent
    refine ⟨hcons, hcons.checkLoaded fw, fun c hc => ?_⟩
    exact (hcons.call hc).2.2
  · have hcons := hs.consistent
    refine ⟨hcons, hcons.checkDocLoaded, fun policy docs stop hc => ⟨fun hp => ?_, fun hp hfirst => ?_, fun hp => ?_⟩⟩
    · exact (hcons.writeDocuments hp hc).2.2
    · subst hp
      exact hcons.writeFail_raised (hc.1 rfl) hfirst
    · subst hp
      exact (hcons.writeFail docs (hc.1 rfl) stop).2

/-- Two documents in slices of one, then an upsert of one of them beside a row that the kernel refuses; and a Haystack
write of two documents, then one of a refused embedding. -/
theorem stores_consistent_two :
    let J : Kernel Bool := ⟨fun _ => true, id⟩
    let s := ((Store.new ℕ Bool ℕ none).call J .langchain 1 (.add 8 [(0, 5, true), (1, 6, true)] none)).1
    let r := s.call J .langchain 1 (.add 8 [(1, 7, true), (2, 8, false)] none)
    let K : DocKernel Bool ℕ := ⟨⟨fun _ => true, id⟩, fun _ => 8, fun _ => true⟩
    let t := ((DocStore.new ℕ Bool ℕ).writeDocuments K 1 .fail [(0, 5, some true), (1, 6, some true)] none).1
    let q := t.writeDocuments K 1 .fail [(2, 8, some false)] none
    s.index.rows.keys = {1, 2} ∧ s.Consistent ∧ r.2 = .raised ∧ r.1 = { s with nextU64 := 4 } ∧
      t.Consistent ∧ q.2 = .raised ∧ q.1 = { t with nextU64 := 3 } := by
  intro J s r K t q
  have hs : Store.Reached J .langchain 1 s := .call _ (.new none) (by
    rintro ⟨-, -, j, hj, -⟩
    cases hj)
  have hr : r.2 = .raised := by decide
  have hc : Call.Whole J .langchain 1 (.add 8 [(1, 7, true), (2, 8, false)] none : Call ℕ Bool ℕ) := by
    rintro ⟨-, -, j, hj, -⟩
    cases hj
  obtain ⟨hcons, -, hsame⟩ := stores_consistent.1 _ _ _ s hs
  have hback := hsame _ hc (hr ▸ Outcome.noConfusion)
  have ht : DocStore.Reached K 1 t :=
    .call (.write .fail [(0, 5, some true), (1, 6, some true)] none) .new ⟨fun _ _ _ => rfl, fun h => absurd rfl h⟩
  obtain ⟨hcons', -, hsame'⟩ := stores_consistent.2 _ _ t ht
  have hq : q.2 = .raised := by decide
  have hback' := (hsame' .fail [(2, 8, some false)] none ⟨fun _ _ _ => rfl, fun h => absurd rfl h⟩).2.1 rfl
    ⟨fun j hj => (by cases hj), fun doc hdoc => (by cases hdoc)⟩ hq
  exact ⟨by decide, hcons, hr, hback, hcons', hq, hback'⟩

/-- An exception before the second of two slices: the first row is in the index and in no map, and the
dump is refused. -/
theorem stores_interrupted :
    let r := (Store.new ℕ Unit Unit none).call ⟨fun _ => true, fun _ => true⟩ .langchain 1
      (.add 8 [(0, (), ()), (1, (), ())] (some 1))
    r.2 = .raised ∧ 1 ∈ r.1.index.rows ∧ ¬ r.1.Consistent ∧
      checkLoaded .langchain r.1.index r.1.sidecar = .error (.handles (.count 0 1)) := by
  intro r
  have hin : 1 ∈ r.1.index.rows := by decide
  refine ⟨by decide, hin, fun h => ?_, by decide⟩
  obtain ⟨i, hi⟩ := (h.handles 1).mp hin
  have hnone : r.1.strToU64 = ∅ := by decide
  rw [hnone, Finmap.lookup_empty] at hi
  cases hi

-- A document whose metadata cannot be copied: its id keeps a handle with no payload.
example :
    let r := (DocStore.new ℕ Unit Bool).writeDocuments ⟨⟨fun _ => true, fun _ => true⟩, fun _ => 8, id⟩ 1 .fail
      [(0, false, some ())] none
    r.2 = .refused ∧ r.1.strToU64.lookup 0 = some 1 ∧ r.1.u64ToDoc.lookup 1 = none := by decide

end Turbovec.Python
