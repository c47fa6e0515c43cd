import Laurus.Common.Bytes
import Laurus.Common.Run
import Laurus.Store.Helpers.DocumentStore

/-!
# The document store against a map of versions

`document_store_refines_versions`: a store whose steps meet `Served` reads, in
whatever order documents are put, committed and read, the newest version of
every document, by each of its three reads and out of whichever of the pending
documents, the cache and the segments it is found in; a restart goes back to
the versions of the last manifest; and the counter stays above every id.
-/

namespace Laurus

open DocumentSegmentReader UnifiedDocumentStore

variable {Document Value : Type} {codec : DocCodec Document}

/-! ## Calls on the store -/

/-- A call on an open store, or a restart. -/
inductive DocCall (Document : Type)
  | put_document_with_id (doc_id : UInt64) (doc : Document)
  | add_document (doc : Document)
  | commit (fault : Option CommitFault)
  | get_document (doc_id : UInt64) (evicted : List UInt64)
  | get_documents_batch (doc_ids evicted : List UInt64)
  | get_field_values_batch (doc_ids : List UInt64) (field : String)
  /-- The files are opened again. -/
  | reopen

/-- What a call returns. -/
inductive DocReturn (Document Value : Type)
  | done
  | added (doc_id : UInt64)
  | failed (e : LaurusError)
  | found (doc : Except Fault (Option Document))
  | batch (docs : Except Fault (Docs Document))
  | values (values : Except Fault (AList fun _ : UInt64 => Value))
  deriving DecidableEq

/-- What a call does. -/
def DocCall.run (codec : DocCodec Document) (fields : Document → String → Option Value)
    (store : UnifiedDocumentStore Document) :
    DocCall Document → DocReturn Document Value × UnifiedDocumentStore Document
  | put_document_with_id doc_id doc => (.done, store.put_document_with_id doc_id doc)
  | add_document doc => let (doc_id, store) := store.add_document doc; (.added doc_id, store)
  | commit fault => match store.commit codec fault with
    | (.ok (), store) => (.done, store)
    | (.error e, store) => (.failed e, store)
  | get_document doc_id evicted =>
    let (doc, store) := store.get_document codec doc_id evicted; (.found doc, store)
  | get_documents_batch doc_ids evicted =>
    let (docs, store) := store.get_documents_batch codec doc_ids evicted; (.batch docs, store)
  | get_field_values_batch doc_ids field =>
    let (values, store) := store.get_field_values_batch codec fields doc_ids field
    (.values values, store)
  | reopen => (.done, load store.storage)

/-- A step of the store, labelled by the call and what it returned. -/
def DocStep (codec : DocCodec Document) (fields : Document → String → Option Value) :
    Step (UnifiedDocumentStore Document) (DocCall Document × DocReturn Document Value) :=
  fun store label store' => label.1.run codec fields store = (label.2, store')

/-- The steps that a store serves: no document is put under the greatest id,
and the documents there are to commit are committed as a segment. -/
def Served (codec : DocCodec Document) (store : UnifiedDocumentStore Document) :
    DocCall Document × DocReturn Document Value → Prop
  | (.put_document_with_id doc_id _, _) => doc_id ≠ MAX_SEQ
  | (.add_document _, _) => store.next_doc_id ≠ MAX_SEQ
  | (.commit fault, _) => store.pending_docs.keys ≠ [] → CanCommit codec store fault
  | _ => True

/-! ## The versions -/

/-- What a call that returned so does to the versions. A read returns them, and
does not fail; a commit that failed may have reached the manifest. -/
inductive VersionStep (fields : Document → String → Option Value) :
    DocVersions Document → DocCall Document × DocReturn Document Value → DocVersions Document → Prop
  | put {versions : DocVersions Document} {doc_id : UInt64} {doc : Document} :
      VersionStep fields versions (.put_document_with_id doc_id doc, .done)
        { versions with current := Function.update versions.current doc_id (some doc) }
  | added {versions : DocVersions Document} {doc_id : UInt64} {doc : Document} :
      versions.current doc_id = none →
      VersionStep fields versions (.add_document doc, .added doc_id)
        { versions with current := Function.update versions.current doc_id (some doc) }
  | committed {versions : DocVersions Document} {fault : Option CommitFault} :
      VersionStep fields versions (.commit fault, .done)
        { versions with committed := versions.current }
  | commit_failed {versions versions' : DocVersions Document} {fault : Option CommitFault}
      {e : LaurusError} :
      versions' = versions ∨ versions' = { versions with committed := versions.current } →
      VersionStep fields versions (.commit fault, .failed e) versions'
  | found {versions : DocVersions Document} {doc_id : UInt64} {evicted : List UInt64} :
      VersionStep fields versions (.get_document doc_id evicted,
        .found (.ok (versions.current doc_id))) versions
  | batch {versions : DocVersions Document} {doc_ids evicted : List UInt64} {docs : Docs Document} :
      (∀ id, AList.lookup id docs = if id ∈ doc_ids then versions.current id else none) →
      VersionStep fields versions (.get_documents_batch doc_ids evicted, .batch (.ok docs)) versions
  | values {versions : DocVersions Document} {doc_ids : List UInt64} {field : String}
      {values : AList fun _ : UInt64 => Value} :
      (∀ id, AList.lookup id values =
        if id ∈ doc_ids then (versions.current id).bind fun doc => fields doc field else none) →
      VersionStep fields versions (.get_field_values_batch doc_ids field, .values (.ok values))
        versions
  | reopen {versions : DocVersions Document} :
      VersionStep fields versions (.reopen, .done) { versions with current := versions.committed }

variable {fields : Document → String → Option Value} {store store' : UnifiedDocumentStore Document}
  {versions : DocVersions Document} {contents : Contents Document}

/-! ## The refinement -/

/-- **One step of the store is one of the versions.** -/
theorem Stores.step (h : Stores codec store versions contents)
    {label : DocCall Document × DocReturn Document Value} (hserved : Served codec store label)
    (hstep : DocStep codec fields store label store') :
    ∃ versions' contents', VersionStep fields versions label versions' ∧
      Stores codec store' versions' contents' := by
  obtain ⟨call, ret⟩ := label
  unfold DocStep at hstep
  cases call with
  | put_document_with_id doc_id doc =>
      cases hstep
      exact ⟨_, _, .put, h.put_document_with_id hserved doc⟩
  | add_document doc =>
      cases hstep
      obtain ⟨hnew, hadded⟩ := h.add_document hserved doc
      exact ⟨_, _, .added hnew, hadded⟩
  | commit fault =>
      obtain ⟨contents', versions', hstores, hcases⟩ := h.commit hserved
      dsimp only [DocCall.run] at hstep
      rcases hout : store.commit codec fault with ⟨result, store₁⟩
      rw [hout] at hstep hstores hcases
      rcases hcases with ⟨hok, hversions⟩ | ⟨e, herror, hversions⟩
      · dsimp only at hok
        subst hok
        cases hstep
        subst hversions
        exact ⟨_, _, .committed, hstores⟩
      · dsimp only at herror
        subst herror
        cases hstep
        exact ⟨_, _, .commit_failed hversions, hstores⟩
  | get_document doc_id evicted =>
      obtain ⟨store₁, hread, hstores⟩ := h.get_document doc_id evicted
      dsimp only [DocCall.run] at hstep
      rw [hread] at hstep
      cases hstep
      exact ⟨_, _, .found, hstores⟩
  | get_documents_batch doc_ids evicted =>
      obtain ⟨docs, store₁, hread, hlookup, hstores⟩ := h.get_documents_batch doc_ids evicted
      dsimp only [DocCall.run] at hstep
      rw [hread] at hstep
      cases hstep
      exact ⟨_, _, .batch hlookup, hstores⟩
  | get_field_values_batch doc_ids field =>
      obtain ⟨values, store₁, hread, hlookup, hstores⟩ :=
        h.get_field_values_batch fields doc_ids field
      dsimp only [DocCall.run] at hstep
      rw [hread] at hstep
      cases hstep
      exact ⟨_, _, .values hlookup, hstores⟩
  | reopen =>
      cases hstep
      obtain ⟨contents', hstores⟩ := h.reopen
      exact ⟨_, _, .reopen, hstores⟩

/-- **A run of the store is a run of the versions.** -/
theorem Stores.run {labels : List (DocCall Document × DocReturn Document Value)}
    (hrun : Run (Step.guarded (Served codec) (DocStep codec fields)) store labels store') :
    ∀ {versions contents}, Stores codec store versions contents →
      ∃ versions' contents', Run (VersionStep fields) versions labels versions' ∧
        Stores codec store' versions' contents' := by
  induction hrun with
  | nil store => exact fun h => ⟨_, _, Run.nil _, h⟩
  | cons hstep _ ih =>
      intro versions contents h
      obtain ⟨versions₁, contents₁, hone, h₁⟩ := h.step hstep.1 hstep.2
      obtain ⟨versions', contents', hrest, h'⟩ := ih h₁
      exact ⟨versions', contents', Run.cons hone hrest, h'⟩

/-- No document. -/
def DocVersions.empty : DocVersions Document := { current := fun _ => none, committed := fun _ => none }

/-- **The document store refines the map of versions.** Of a run from a store
with no manifest, every call returns what the run of the versions says it
does; and the counter is above every document there is. -/
theorem document_store_refines_versions (files : AList fun _ : UInt32 => Bytes)
    (labels : List (DocCall Document × DocReturn Document Value))
    (store : UnifiedDocumentStore Document)
    (hrun : Run (Step.guarded (Served codec) (DocStep codec fields))
      (load { manifest := none, files }) labels store) :
    ∃ versions, Run (VersionStep fields) DocVersions.empty labels versions ∧
      (∀ id, versions.current id = none ∨ id < store.next_doc_id) ∧
      ∀ id evicted, (store.get_document codec id evicted).1 = .ok (versions.current id) := by
  have hfresh : Stores codec (load { manifest := none, files }) DocVersions.empty [] :=
    ⟨List.Forall₂.nil, rfl, fun _ => rfl, fun _ _ hdoc => (by cases hdoc),
      ⟨0, Nat.le_refl _, rfl, fun _ => rfl⟩, fun _ _ hdoc => (by cases hdoc),
      fun _ hmem => (by cases hmem)⟩
  obtain ⟨versions, contents, hversions, h⟩ := Stores.run hrun hfresh
  refine ⟨versions, hversions, fun id => ?_, fun id evicted => ?_⟩
  · cases hcurrent : versions.current id with
    | none => exact Or.inl rfl
    | some doc => exact Or.inr (h.below id doc hcurrent)
  · obtain ⟨store₁, hread, -⟩ := h.get_document id evicted
    rw [hread]

/-! ## A store of numbers -/

/-- The JSON of a document whose one field `n` is a digit. -/
def sampleJson (doc : Fin 10) : Bytes :=
  ("\x7b\"fields\":\x7b\"n\":\x7b\"Int64\":".toList ++ [doc.val.digitChar] ++
    "\x7d\x7d\x7d".toList).map fun c => UInt8.ofNat c.toNat

def sampleDocCodec : DocCodec (Fin 10) where
  crc32 := Crc32.checksum
  to_vec doc := .ok (sampleJson doc)
  from_slice bytes := match (List.finRange 10).find? fun doc => sampleJson doc = bytes with
    | some doc => .ok doc
    | none => .error "expected value"

theorem sampleDocCodec_roundTrips (doc : Fin 10) : sampleDocCodec.RoundTrips doc := by
  have hread : ∀ doc : Fin 10, (sampleJson doc).length < 2 ^ 63 ∧
      sampleDocCodec.from_slice (sampleJson doc) = .ok doc := by decide +kernel
  exact ⟨sampleJson doc, rfl, hread doc⟩

/-- The documents' fields. -/
def sampleFields (doc : Fin 10) (field : String) : Option ℕ :=
  if field = "n" then some doc.val else none

/-- The store of an index that has no file yet. -/
def sampleFreshStore : UnifiedDocumentStore (Fin 10) := load { manifest := none, files := ∅ }

/-- A document is stored, stored anew, and read after a restart. -/
def sampleDocLabels : List (DocCall (Fin 10) × DocReturn (Fin 10) ℕ) :=
  [(.put_document_with_id 7 3, .done), (.commit none, .done),
    (.get_document 7 [], .found (.ok (some 3))), (.put_document_with_id 7 4, .done),
    (.commit none, .done), (.reopen, .done), (.get_document 7 [], .found (.ok (some 4)))]

theorem sampleStep {store : UnifiedDocumentStore (Fin 10)} {call : DocCall (Fin 10)}
    {ret : DocReturn (Fin 10) ℕ} (hserved : Served sampleDocCodec store (call, ret))
    (h : (call.run sampleDocCodec sampleFields store).1 = ret) :
    Step.guarded (Served sampleDocCodec) (DocStep sampleDocCodec sampleFields) store (call, ret)
      (call.run sampleDocCodec sampleFields store).2 :=
  ⟨hserved, by unfold DocStep; rw [← h]⟩

/-- **The sample run**: the newer of two segments is read. -/
theorem document_store_refines_versions_sample : ∃ store,
    Run (Step.guarded (Served sampleDocCodec) (DocStep sampleDocCodec sampleFields))
      sampleFreshStore sampleDocLabels store ∧
    ∃ versions, Run (VersionStep sampleFields) DocVersions.empty sampleDocLabels versions ∧
      (∀ id, versions.current id = none ∨ id < store.next_doc_id) ∧
      ∀ id evicted, (store.get_document sampleDocCodec id evicted).1 = .ok (versions.current id) := by
  let after (store : UnifiedDocumentStore (Fin 10)) (call : DocCall (Fin 10)) :=
    (call.run sampleDocCodec sampleFields store).2
  let store₁ := after sampleFreshStore (.put_document_with_id 7 3)
  let store₂ := after store₁ (.commit none)
  let store₃ := after store₂ (.get_document 7 [])
  let store₄ := after store₃ (.put_document_with_id 7 4)
  let store₅ := after store₄ (.commit none)
  let store₆ := after store₅ .reopen
  have hid : (7 : UInt64) ≠ MAX_SEQ := by decide
  have hfirst : CanCommit sampleDocCodec store₁ none :=
    ⟨fun _ h => (by cases h), by decide +kernel, fun doc _ => sampleDocCodec_roundTrips doc.2,
      by decide +kernel⟩
  have hsecond : CanCommit sampleDocCodec store₄ none :=
    ⟨fun _ h => (by cases h), by decide +kernel, fun doc _ => sampleDocCodec_roundTrips doc.2,
      by decide +kernel⟩
  have hrun : Run (Step.guarded (Served sampleDocCodec) (DocStep sampleDocCodec sampleFields))
      sampleFreshStore sampleDocLabels (after store₆ (.get_document 7 [])) :=
    Run.cons (sampleStep hid rfl) <|
    Run.cons (sampleStep (fun _ => hfirst) (by decide +kernel)) <|
    Run.cons (sampleStep trivial (by decide +kernel)) <|
    Run.cons (sampleStep hid rfl) <|
    Run.cons (sampleStep (fun _ => hsecond) (by decide +kernel)) <|
    Run.cons (sampleStep trivial rfl) <|
    Run.single (sampleStep trivial (by decide +kernel))
  exact ⟨_, hrun, document_store_refines_versions ∅ sampleDocLabels _ hrun⟩

/-! ## The counter that wraps around -/

/-- A document under the greatest id, and a restart. -/
def sampleWrapLabels : List (DocCall (Fin 10) × DocReturn (Fin 10) ℕ) :=
  [(.put_document_with_id MAX_SEQ 3, .done), (.commit none, .done), (.reopen, .done)]

/-- **The next document id is 0**, below the document that is stored. -/
theorem document_store_refines_versions_counterexample : ∃ store,
    Run (DocStep sampleDocCodec sampleFields) sampleFreshStore sampleWrapLabels store ∧
      store.next_doc_id = 0 ∧
      (store.get_document sampleDocCodec MAX_SEQ []).1 = .ok (some 3) ∧
      ¬ ∃ versions, Run (VersionStep sampleFields) DocVersions.empty sampleWrapLabels versions ∧
        ∀ id, versions.current id = none ∨ id < store.next_doc_id := by
  let store₁ := ((DocCall.put_document_with_id MAX_SEQ 3).run sampleDocCodec sampleFields
    sampleFreshStore).2
  let store₂ := ((DocCall.commit none).run sampleDocCodec sampleFields store₁).2
  have hcommit : ((DocCall.commit none).run sampleDocCodec sampleFields store₁).1 = .done := by
    decide +kernel
  have hstep : DocStep sampleDocCodec sampleFields store₁ (.commit none, .done) store₂ := by
    unfold DocStep
    rw [← hcommit]
  refine ⟨load store₂.storage, Run.cons rfl (Run.cons hstep (Run.single rfl)),
    by decide +kernel, by decide +kernel, ?_⟩
  · rintro ⟨versions, hrun, hbelow⟩
    have hcurrent : versions.current MAX_SEQ = some 3 := by
      cases hrun with
      | cons hput hrest =>
        cases hput
        cases hrest with
        | cons hcommit hrest =>
          cases hcommit
          cases hrest with
          | cons hreopen hrest =>
            cases hreopen
            cases hrest
            show Function.update (fun _ : UInt64 => none) MAX_SEQ (some (3 : Fin 10)) MAX_SEQ = some 3
            rw [Function.update_self]
    rcases hbelow MAX_SEQ with hnone | hlt
    · rw [hcurrent] at hnone
      cases hnone
    · have hzero : (load store₂.storage : UnifiedDocumentStore (Fin 10)).next_doc_id = 0 := by
        decide +kernel
      rw [hzero] at hlt
      exact absurd hlt (by decide)

end Laurus
