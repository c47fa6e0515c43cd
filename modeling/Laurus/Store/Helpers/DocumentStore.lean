import Laurus.Common.Bytes
import Laurus.Store.Helpers.Document
import Mathlib

/-!
# The document store and the versions it holds

`Stores codec store versions contents` relates a store to the newest version of
each document: the readers hold the documents of the segments, what is cached
is the newest version, and the manifest names the first of the segments. Each
call of the store is stated once over it.
-/

namespace Laurus

open DocumentSegmentReader UnifiedDocumentStore

variable {Document Value : Type} {codec : DocCodec Document}

/-- The newest version of each document, and of each document as the last
manifest has it. -/
structure DocVersions (Document : Type) where
  current : UInt64 → Option Document
  committed : UInt64 → Option Document

/-! ## Segments, newest last -/

/-- A list of segments' documents. -/
abbrev Contents (Document : Type) := List (List (Σ _ : UInt64, Document))

/-- The version of a document in the newest segment that has it. -/
def newest (contents : Contents Document) (id : UInt64) : Option Document :=
  contents.reverse.findSome? (List.dlookup id)

theorem newest_append (contents : Contents Document) (docs : List (Σ _ : UInt64, Document))
    (id : UInt64) :
    newest (contents ++ [docs]) id = (docs.dlookup id).or (newest contents id) := by
  rw [newest, List.reverse_append, List.reverse_singleton, List.singleton_append,
    List.findSome?_cons]
  cases docs.dlookup id <;> rfl

/-- Readers of the segments' files. -/
def ReadersHold (codec : DocCodec Document) (storage : DocStorage) :
    List DocumentSegmentReader → Contents Document → Prop :=
  List.Forall₂ (ReaderHolds codec storage)

variable {storage : DocStorage} {readers : List DocumentSegmentReader}
  {contents : Contents Document}

/-- What a read leaves of the readers. -/
def AllKept (codec : DocCodec Document) (storage : DocStorage) (contents : Contents Document)
    (readers readers' : List DocumentSegmentReader) : Prop :=
  readers'.map (·.segment) = readers.map (·.segment) ∧ ReadersHold codec storage readers' contents

theorem AllKept.cons {reader reader' : DocumentSegmentReader}
    {docs : List (Σ _ : UInt64, Document)} {readers' : List DocumentSegmentReader}
    (h : Kept codec storage docs reader reader') (hs : AllKept codec storage contents readers readers') :
    AllKept codec storage (docs :: contents) (reader :: readers) (reader' :: readers') :=
  ⟨by rw [List.map_cons, List.map_cons, h.1, hs.1], List.Forall₂.cons h.2 hs.2⟩

theorem find_document_eq (h : ReadersHold codec storage readers contents) (id : UInt64) :
    ∃ readers', find_document codec storage id readers =
      (.ok (contents.findSome? (List.dlookup id)), readers') ∧
        AllKept codec storage contents readers readers' := by
  induction h with
  | nil => exact ⟨[], rfl, rfl, List.Forall₂.nil⟩
  | @cons reader docs readers contents hone hrest ih =>
      obtain ⟨reader', hread, hkept⟩ := hone.get_document id
      rw [find_document, hread, List.findSome?_cons]
      cases docs.dlookup id with
      | none =>
          grind [AllKept.cons]
      | some doc => exact ⟨reader' :: readers, rfl, AllKept.cons hkept ⟨rfl, hrest⟩⟩

theorem lookup_union (first last : Docs Document) (id : UInt64) :
    AList.lookup id (first ∪ last) = (AList.lookup id first).or (AList.lookup id last) := by
  grind [Option.isSome_iff_exists, AList.lookup_isSome, AList.lookup_union_left,
    AList.lookup_union_right, AList.lookup_eq_none]

theorem load_batch_eq (h : ReadersHold codec storage readers contents) (ids : List UInt64)
    (loaded : Docs Document) :
    ∃ found readers', load_batch codec storage ids readers loaded = (.ok found, readers') ∧
      (∀ id, AList.lookup id found =
        (if id ∈ ids then newest contents id else none).or (AList.lookup id loaded)) ∧
        AllKept codec storage contents readers readers' := by
  induction h generalizing loaded with
  | nil => exact ⟨loaded, [], rfl, fun id => by simp [newest], rfl, List.Forall₂.nil⟩
  | @cons reader docs readers contents hone hrest ih =>
      obtain ⟨one, reader', hread, hone, hkept⟩ := hone.get_documents_batch ids
      obtain ⟨found, readers', hload, hfound, hall⟩ := ih (one ∪ loaded)
      refine ⟨found, reader' :: readers', ?_, fun id => ?_, AllKept.cons hkept hall⟩
      · grind [load_batch]
      · have hnewest : newest (docs :: contents) id = (newest contents id).or (docs.dlookup id) := by
          simp [newest]
        grind [lookup_union]

/-! ## The relation -/

/-- The segments that the manifest on disk names. -/
def listed (storage : DocStorage) : List DocumentSegment :=
  match storage.manifest with
  | some manifest => manifest.segments
  | none => []

/-- The store holds the versions, its segments the documents of `contents`:
what is cached is the newest version and not pending, and the manifest names
the first of the segments. -/
structure Stores (codec : DocCodec Document) (store : UnifiedDocumentStore Document)
    (versions : DocVersions Document) (contents : Contents Document) : Prop where
  readers : ReadersHold codec store.storage store.readers contents
  segments : store.readers.map (·.segment) = store.segments
  current : ∀ id, versions.current id =
    (AList.lookup id store.pending_docs).or (newest contents id)
  cached : ∀ id doc, AList.lookup id store.doc_cache = some doc →
    AList.lookup id store.pending_docs = none ∧ newest contents id = some doc
  committed : ∃ k ≤ store.segments.length, listed store.storage = store.segments.take k ∧
    ∀ id, versions.committed id = newest (contents.take k) id
  below : ∀ id doc, versions.current id = some doc → id < store.next_doc_id
  ends : ∀ segment ∈ store.segments, segment.end_doc_id < store.next_doc_id

variable {store store' : UnifiedDocumentStore Document} {versions : DocVersions Document}

theorem Stores.insert (h : Stores codec store versions contents) {doc_id next_doc_id : UInt64}
    {cache : Docs Document} (doc : Document) (hbelow : doc_id < next_doc_id)
    (hnext : store.next_doc_id ≤ next_doc_id)
    (hcache : ∀ id doc, AList.lookup id cache = some doc →
      id ≠ doc_id ∧ AList.lookup id store.doc_cache = some doc) :
    Stores codec { store with
        pending_docs := AList.insert doc_id doc store.pending_docs, doc_cache := cache, next_doc_id }
      { versions with current := Function.update versions.current doc_id (some doc) } contents where
  readers := h.readers
  segments := h.segments
  current id := by
    grind [AList.lookup_insert, AList.lookup_insert_ne, current]
  cached id found hfound := by
    grind [AList.lookup_insert_ne, cached]
  committed := h.committed
  below id found hfound := by
    dsimp only at hfound ⊢
    by_cases hid : id = doc_id
    · rw [hid]
      exact hbelow
    · rw [Function.update_of_ne hid] at hfound
      exact UInt64.lt_of_lt_of_le (h.below id found hfound) hnext
  ends segment hmem := UInt64.lt_of_lt_of_le (h.ends segment hmem) hnext

theorem Stores.put_document_with_id (h : Stores codec store versions contents) {doc_id : UInt64}
    (hmax : doc_id ≠ MAX_SEQ) (doc : Document) :
    Stores codec (store.put_document_with_id doc_id doc)
      { versions with current := Function.update versions.current doc_id (some doc) } contents := by
  have hcounter : doc_id < (store.put_document_with_id doc_id doc).next_doc_id ∧
      store.next_doc_id ≤ (store.put_document_with_id doc_id doc).next_doc_id := by
    grind [UnifiedDocumentStore.put_document_with_id, lt_succ_of_le]
  refine h.insert doc hcounter.1 hcounter.2 fun id found hfound => ?_
  grind [AList.lookup_erase, AList.lookup_erase_ne]

theorem Stores.add_document (h : Stores codec store versions contents)
    (hmax : store.next_doc_id ≠ MAX_SEQ) (doc : Document) :
    versions.current store.next_doc_id = none ∧
      Stores codec (store.add_document doc).2
        { versions with current := Function.update versions.current store.next_doc_id (some doc) }
        contents := by
  have hnew : versions.current store.next_doc_id = none := by
    rw [Option.eq_none_iff_forall_ne_some]
    exact fun found hfound => UInt64.lt_irrefl _ (h.below _ found hfound)
  refine ⟨hnew, h.insert doc (lt_succ hmax) (UInt64.le_of_lt (lt_succ hmax))
    fun id found hfound => ⟨?_, hfound⟩⟩
  rintro rfl
  obtain ⟨hpending, hnewest⟩ := h.cached _ found hfound
  rw [h.current, hpending, hnewest] at hnew
  cases hnew

/-! ## Reads -/

theorem Stores.read (h : Stores codec store versions contents)
    {readers' : List DocumentSegmentReader} {cache : Docs Document}
    (hreaders : AllKept codec store.storage contents store.readers readers')
    (hcache : ∀ id doc, AList.lookup id cache = some doc →
      AList.lookup id store.doc_cache = some doc ∨
        (AList.lookup id store.pending_docs = none ∧ newest contents id = some doc)) :
    Stores codec { store with readers := readers', doc_cache := cache } versions contents where
  readers := hreaders.2
  segments := hreaders.1.trans h.segments
  current := h.current
  cached id doc hdoc := (hcache id doc hdoc).elim (h.cached id doc) fun hnew => hnew
  committed := h.committed
  below := h.below
  ends := h.ends

variable {id : UInt64} {doc : Document} {docs : List (Σ _ : UInt64, Document)}

theorem lookup_cache_put {cache docs : Docs Document} {evicted : List UInt64} (h : AList.lookup id (cache_put cache docs evicted) = some doc) :
    AList.lookup id docs = some doc ∨ AList.lookup id cache = some doc := by
  unfold cache_put at h
  induction evicted with
  | nil =>
      rw [List.foldr_nil, lookup_union] at h
      cases hdocs : AList.lookup id docs with
      | none =>
          grind
      | some found =>
          grind
  | cons gone evicted ih =>
      grind [AList.lookup_erase, AList.lookup_erase_ne]

/-- **The single read.** -/
theorem Stores.get_document (h : Stores codec store versions contents) (id : UInt64)
    (evicted : List UInt64) :
    ∃ store', store.get_document codec id evicted = (.ok (versions.current id), store') ∧
      Stores codec store' versions contents := by
  rw [h.current id]
  unfold UnifiedDocumentStore.get_document
  cases hpending : AList.lookup id store.pending_docs with
  | some doc => exact ⟨store, rfl, h⟩
  | none =>
      cases hcache : AList.lookup id store.doc_cache with
      | some doc =>
          grind [cached]
      | none =>
          have hreverse : ReadersHold codec store.storage store.readers.reverse contents.reverse :=
            List.forall₂_reverse_iff.2 h.readers
          obtain ⟨readers', hfind, hsegments, hholds⟩ := find_document_eq hreverse id
          have hkept : AllKept codec store.storage contents store.readers readers'.reverse := by
            refine ⟨?_, List.forall₂_reverse_iff.1 (by rw [List.reverse_reverse]; exact hholds)⟩
            rw [List.map_reverse, hsegments, List.map_reverse, List.reverse_reverse]
          have hsame : contents.reverse.findSome? (List.dlookup id) = newest contents id := rfl
          dsimp only
          rw [hfind, hsame]
          cases hnewest : newest contents id with
          | none => grind [read]
          | some doc =>
              refine ⟨_, rfl, h.read hkept fun id' doc' hdoc => ?_⟩
              rcases lookup_cache_put hdoc with hone | hold
              · by_cases hid : id' = id
                · rw [hid, AList.lookup_insert] at hone
                  grind
                · rw [AList.lookup_insert_ne hid] at hone
                  cases hone
              · exact Or.inl hold

/-- What is pending or cached of a document. -/
def heldOf (store : UnifiedDocumentStore Document) (id : UInt64) : Option Document :=
  (AList.lookup id store.pending_docs).or (AList.lookup id store.doc_cache)

theorem Stores.current_of_held (h : Stores codec store versions contents) (hheld : heldOf store id = some doc) : versions.current id = some doc := by
  rw [h.current id]
  unfold heldOf at hheld
  cases hpending : AList.lookup id store.pending_docs with
  | some found =>
      grind
  | none =>
      grind [cached]

theorem Stores.newest_of_not_held (h : Stores codec store versions contents)
    (hheld : heldOf store id = none) :
    AList.lookup id store.pending_docs = none ∧ versions.current id = newest contents id := by
  unfold heldOf at hheld
  rw [Option.or_eq_none_iff] at hheld
  rw [h.current id, hheld.1]
  exact ⟨rfl, rfl⟩

theorem lookup_take_pending (pending : Docs Document) (ids : List UInt64) (results : Docs Document)
    (id : UInt64) :
    AList.lookup id (ids.foldl (take_pending pending) results) =
      (if id ∈ ids then AList.lookup id pending else none).or (AList.lookup id results) := by
  induction ids generalizing results with
  | nil => rfl
  | cons first ids ih =>
      have hone : AList.lookup id (take_pending pending results first) =
          (if id = first then AList.lookup id pending else none).or (AList.lookup id results) := by
        unfold take_pending
        by_cases hid : id = first
        · subst hid
          grind [AList.lookup_insert]
        · rw [if_neg hid, Option.none_or]
          grind [AList.lookup_insert_ne]
      grind

theorem lookup_take_cached (cache : Docs Document) (ids : List UInt64) (results : Docs Document)
    (id : UInt64) :
    AList.lookup id (ids.foldl (take_cached cache) results) =
      (AList.lookup id results).or (if id ∈ ids then AList.lookup id cache else none) := by
  induction ids generalizing results with
  | nil => simp
  | cons first ids ih =>
      have hone : AList.lookup id (take_cached cache results first) =
          (AList.lookup id results).or (if id = first then AList.lookup id cache else none) := by
        unfold take_cached
        by_cases hid : id = first
        · subst hid
          by_cases hmem : id ∈ results
          · obtain ⟨doc, hdoc⟩ := Option.isSome_iff_exists.1 (AList.lookup_isSome.2 hmem)
            rw [if_pos hmem, hdoc]
            rfl
          · rw [if_neg hmem, AList.lookup_eq_none.2 hmem, Option.none_or]
            grind [AList.lookup_eq_none, AList.lookup_insert]
        · rw [if_neg hid, Option.or_none]
          grind [AList.lookup_insert_ne]
      grind

/-- **The batch read.** -/
theorem Stores.get_documents_batch (h : Stores codec store versions contents) (ids : List UInt64)
    (evicted : List UInt64) :
    ∃ docs store', store.get_documents_batch codec ids evicted = (.ok docs, store') ∧
      (∀ id, AList.lookup id docs = if id ∈ ids then versions.current id else none) ∧
        Stores codec store' versions contents := by
  unfold UnifiedDocumentStore.get_documents_batch
  by_cases hnil : ids = []
  · rw [if_pos hnil]
    exact ⟨∅, store, rfl, fun id => by simp [hnil], h⟩
  rw [if_neg hnil]
  dsimp only
  set results := ids.dedup.foldl (take_cached store.doc_cache)
    (ids.foldl (take_pending store.pending_docs) ∅) with hresults
  have hheld : ∀ id, AList.lookup id results = if id ∈ ids then heldOf store id else none := by
    intro id
    rw [hresults, lookup_take_cached, lookup_take_pending, AList.lookup_empty, Option.or_none]
    simp only [List.mem_dedup]
    split
    · rfl
    · rfl
  set remaining := ids.dedup.filter fun id => id ∉ results with hremaining
  have hmissing : ∀ id, id ∈ remaining ↔ id ∈ ids ∧ heldOf store id = none := by
    intro id
    rw [hremaining, List.mem_filter, List.mem_dedup, decide_eq_true_eq, ← AList.lookup_eq_none,
      hheld id]
    grind
  by_cases hall : remaining = []
  · rw [if_pos hall]
    refine ⟨results, store, rfl, fun id => ?_, h⟩
    rw [hheld id]
    split
    · rename_i hid
      cases hone : heldOf store id with
      | some doc => exact (h.current_of_held hone).symm
      | none =>
          grind
    · rfl
  rw [if_neg hall]
  obtain ⟨loaded, readers', hload, hlookup, hkept⟩ := load_batch_eq h.readers remaining ∅
  rw [hload]
  have hloaded : ∀ id, AList.lookup id loaded = if id ∈ remaining then newest contents id else none := by
    intro id
    rw [hlookup id, AList.lookup_empty, Option.or_none]
  refine ⟨loaded ∪ results, _, rfl, fun id => ?_, ?_⟩
  · rw [lookup_union, hloaded id, hheld id]
    by_cases hid : id ∈ ids
    · rw [if_pos hid, if_pos hid]
      cases hone : heldOf store id with
      | some doc =>
          have hnot : id ∉ remaining := by grind
          rw [if_neg hnot, h.current_of_held hone]
          rfl
      | none =>
          rw [if_pos ((hmissing id).2 ⟨hid, hone⟩), Option.or_none, (h.newest_of_not_held hone).2]
    grind
  · split
    · exact h.read hkept fun _ _ hdoc => Or.inl hdoc
    · refine h.read hkept fun id doc hdoc => ?_
      refine (lookup_cache_put hdoc).symm.imp (fun hold => hold) fun hnew => ?_
      rw [hloaded id] at hnew
      split at hnew
      · rename_i hmem
        exact ⟨(h.newest_of_not_held ((hmissing id).1 hmem).2).1, hnew⟩
      · cases hnew

variable {fields : Document → String → Option Value}

theorem held_values_eq (fields : Document → String → Option Value)
    (store : UnifiedDocumentStore Document) (field : String) (ids : List UInt64)
    (found : (AList fun _ : UInt64 => Value) × List UInt64) (id : UInt64) :
    (AList.lookup id (held_values fields store field ids found).1 =
      (if id ∈ ids then (heldOf store id).bind fun doc => fields doc field else none).or
        (AList.lookup id found.1)) ∧
      (id ∈ (held_values fields store field ids found).2 ↔
        (id ∈ ids ∧ heldOf store id = none) ∨ id ∈ found.2) := by
  induction ids generalizing found with
  | nil => exact ⟨rfl, by simp [held_values]⟩
  | cons first ids ih =>
      obtain ⟨results, remaining⟩ := found
      have hfold : (AList.lookup first store.pending_docs).or (AList.lookup first store.doc_cache) =
          heldOf store first := rfl
      rw [held_values, hfold]
      by_cases hid : id = first
      · subst hid
        cases hheld : heldOf store id with
        | none =>
            grind
        | some doc =>
            dsimp only
            cases hvalue : fields doc field with
            | none =>
                grind
            | some value =>
                obtain ⟨hvalues, hrest⟩ := ih (AList.insert id value results, remaining)
                dsimp only
                rw [hvalues, hrest]
                rw [if_pos List.mem_cons_self, AList.lookup_insert]
                grind
      · have hmem : id ∈ first :: ids ↔ id ∈ ids := by
          simp [hid]
        cases heldOf store first with
        | none =>
            grind
        | some doc =>
            grind [AList.lookup_insert_ne]

theorem loaded_values_eq (field : String) {loaded : List (Σ _ : UInt64, Document)}
    (hnodup : loaded.NodupKeys) (results : AList fun _ : UInt64 => Value) (id : UInt64) :
    AList.lookup id (loaded_values fields field loaded results) =
      ((loaded.dlookup id).bind fun doc => fields doc field).or (AList.lookup id results) := by
  induction loaded generalizing results with
  | nil => rfl
  | cons entry loaded ih =>
      obtain ⟨first, doc⟩ := entry
      rw [List.nodupKeys_cons] at hnodup
      rw [loaded_values]
      by_cases hid : id = first
      · subst hid
        have hnone : loaded.dlookup id = none := List.dlookup_eq_none.2 hnodup.1
        cases hvalue : fields doc field with
        | none =>
            grind
        | some value =>
            dsimp only
            rw [ih hnodup.2, hnone]
            simp [hvalue]
      grind [AList.lookup_insert_ne]

/-- **The column read.** -/
theorem Stores.get_field_values_batch (h : Stores codec store versions contents)
    (fields : Document → String → Option Value) (ids : List UInt64) (field : String) :
    ∃ values store', store.get_field_values_batch codec fields ids field = (.ok values, store') ∧
      (∀ id, AList.lookup id values =
        if id ∈ ids then (versions.current id).bind fun doc => fields doc field else none) ∧
        Stores codec store' versions contents := by
  have hheld := held_values_eq fields store field ids (∅, [])
  unfold UnifiedDocumentStore.get_field_values_batch
  cases hsplit : held_values fields store field ids (∅, []) with
  | mk results remaining =>
  rw [hsplit] at hheld
  dsimp only at hheld ⊢
  by_cases hall : remaining = []
  · rw [if_pos hall]
    refine ⟨results, store, rfl, fun id => ?_, h⟩
    rw [(hheld id).1, AList.lookup_empty, Option.or_none]
    split
    · rename_i hid
      cases hone : heldOf store id with
      | some doc => rw [h.current_of_held hone]
      | none =>
          grind
    · rfl
  rw [if_neg hall]
  obtain ⟨loaded, readers', hload, hlookup, hkept⟩ := load_batch_eq h.readers remaining ∅
  rw [hload]
  refine ⟨_, _, rfl, fun id => ?_, h.read hkept fun _ _ hdoc => Or.inl hdoc⟩
  have hloaded : loaded.entries.dlookup id = if id ∈ remaining then newest contents id else none := by
    have hone := hlookup id
    rw [AList.lookup_empty, Option.or_none] at hone
    exact hone
  rw [loaded_values_eq field loaded.nodupKeys, hloaded, (hheld id).1, AList.lookup_empty,
    Option.or_none]
  by_cases hid : id ∈ ids
  · rw [if_pos hid, if_pos hid]
    cases hone : heldOf store id with
    | some doc =>
        have hnot : id ∉ remaining := by grind
        rw [if_neg hnot, h.current_of_held hone]
        rfl
    | none =>
        rw [if_pos ((hheld id).2.2 (Or.inl ⟨hid, hone⟩)), (h.newest_of_not_held hone).2]
        exact Option.or_none
  grind

/-! ## Commits -/

/-- The pending documents can be written as a segment, are read back as they
were written, and the segment's id is not in use. -/
def CanCommit (codec : DocCodec Document) (store : UnifiedDocumentStore Document)
    (fault : Option CommitFault) : Prop :=
  (∀ fault', fault ≠ some (.segment fault')) ∧ store.pending_docs.keys.length < 2 ^ 32 ∧
    (∀ doc ∈ store.pending_docs.entries, codec.RoundTrips doc.2) ∧
    ∀ segment ∈ store.segments, segment.id ≠ store.next_segment_id

theorem segment_of_range (segment_id : UInt32)
    (hsorted : docs.Pairwise fun first second => first.1 ≤ second.1) :
    ∀ doc ∈ docs, (segment_of segment_id docs).start_doc_id ≤ doc.1 ∧
      doc.1 ≤ (segment_of segment_id docs).end_doc_id := by
  intro doc hmem
  constructor
  · cases docs with
    | nil => cases hmem
    | cons first docs =>
        rcases List.mem_cons.1 hmem with rfl | hrest
        · exact UInt64.le_refl _
        · exact (List.pairwise_cons.1 hsorted).1 doc hrest
  · rcases List.eq_nil_or_concat docs with rfl | ⟨docs, last, rfl⟩
    · cases hmem
    grind [segment_of]

theorem segment_of_end (segment_id : UInt32)
    (hnonempty : docs ≠ []) : ∃ doc ∈ docs, (segment_of segment_id docs).end_doc_id = doc.1 := by
  rcases List.eq_nil_or_concat docs with rfl | ⟨docs, last, rfl⟩
  · exact absurd rfl hnonempty
  simp [segment_of]

theorem sorted_docs_sorted (docs : Docs Document) :
    (sorted_docs docs).Pairwise fun first second => first.1 ≤ second.1 := by
  have hpairwise := @List.pairwise_mergeSort _
    (fun first second : (Σ _ : UInt64, Document) => decide (first.1 ≤ second.1))
    (fun a b c hab hbc => by grind)
    (fun a b => by grind) docs.entries
  exact hpairwise.imp fun hle => of_decide_eq_true hle

theorem sorted_docs_perm (docs : Docs Document) : (sorted_docs docs).Perm docs.entries :=
  List.mergeSort_perm _ _

theorem ReadersHold.write (h : ReadersHold codec storage readers contents) {segment_id : UInt32}
    (hid : ∀ reader ∈ readers, reader.segment.id ≠ segment_id) (file : Bytes) :
    ReadersHold codec { storage with files := AList.insert segment_id file storage.files } readers
      contents := by
  induction h with
  | nil => exact List.Forall₂.nil
  | cons hone _ ih =>
      refine List.Forall₂.cons ⟨?_, hone.offsets⟩
        (ih fun reader hmem => hid reader (List.mem_cons_of_mem _ hmem))
      grind [ReaderHolds.file, AList.lookup_insert_ne]

theorem Stores.add_segment (h : Stores codec store versions contents)
    (hpending : store.pending_docs.keys ≠ []) (hfew : store.pending_docs.keys.length < 2 ^ 32)
    (hjson : ∀ doc ∈ store.pending_docs.entries, codec.RoundTrips doc.2)
    (hfree : ∀ segment ∈ store.segments, segment.id ≠ store.next_segment_id) :
    ∃ store', { store with pending_docs := ∅ }.add_segment codec store.pending_docs none =
        (.ok (), store') ∧ store'.pending_docs = ∅ ∧
      Stores codec store' versions (contents ++ [sorted_docs store.pending_docs]) := by
  set docs := sorted_docs store.pending_docs with hdocs
  have hperm : docs.Perm store.pending_docs.entries := sorted_docs_perm _
  have hlength : docs.length < 2 ^ 32 := by
    rw [hperm.length_eq]
    unfold AList.keys List.keys at hfew
    rwa [List.length_map] at hfew
  have hnonempty : docs ≠ [] := by
    grind [AList.keys, List.nil_perm]
  have hread : ∀ doc ∈ docs, codec.RoundTrips doc.2 := fun doc hmem =>
    hjson doc (hperm.mem_iff.1 hmem)
  have hnodup : docs.NodupKeys := (List.perm_nodupKeys hperm).2 store.pending_docs.nodupKeys
  have hlookup : ∀ id, docs.dlookup id = AList.lookup id store.pending_docs := fun id =>
    List.perm_dlookup id hnodup hperm
  have hrange := segment_of_range store.next_segment_id (sorted_docs_sorted store.pending_docs)
  set segment := segment_of store.next_segment_id docs with hsegment
  have hbytes := segment_file_eq hlength hread
  set bytes := segmentBody codec docs ++
    StructWriter.footer codec.crc32 (segmentBody codec docs) with hfile
  have hwrite : store.storage.write_segment codec store.next_segment_id store.pending_docs none =
      (.ok segment, { store.storage with
        files := AList.insert store.next_segment_id bytes store.storage.files }) := by
    unfold DocStorage.write_segment
    grind
  refine ⟨{ store with
    storage := { store.storage with
      files := AList.insert store.next_segment_id bytes store.storage.files }
    pending_docs := ∅
    segments := store.segments ++ [segment]
    readers := store.readers ++ [{ segment, offsets := none }]
    next_segment_id := store.next_segment_id + 1 }, ?_, rfl, ?_⟩
  · unfold UnifiedDocumentStore.add_segment
    dsimp only
    rw [hwrite]
  have hcurrent : ∀ id, versions.current id = newest (contents ++ [docs]) id := by
    intro id
    rw [newest_append, hlookup id]
    exact h.current id
  have hused : ∀ reader ∈ store.readers, reader.segment.id ≠ store.next_segment_id := by
    grind [segments]
  refine ⟨?_, ?_, hcurrent, fun id doc hdoc => ⟨rfl, ?_⟩, ?_, h.below, ?_⟩
  · have hlast : ReaderHolds codec { store.storage with
        files := AList.insert store.next_segment_id bytes store.storage.files }
          { segment, offsets := none } docs :=
      ⟨⟨bytes, AList.lookup_insert _, hfile, hlength, hread, hnodup, hrange⟩, Or.inl rfl⟩
    exact List.rel_append (h.readers.write hused bytes) (List.Forall₂.cons hlast List.Forall₂.nil)
  · dsimp only
    rw [List.map_append, h.segments]
    rfl
  · grind [cached, newest_append]
  · obtain ⟨k, hk, hlisted, hcommitted⟩ := h.committed
    have hcontents : contents.length = store.segments.length := by
      rw [← h.readers.length_eq, ← h.segments, List.length_map]
    refine ⟨k, by rw [List.length_append]; omega, ?_, fun id => ?_⟩
    · rw [List.take_append_of_le_length hk]
      exact hlisted
    grind
  · intro seg hmem
    rcases List.mem_append.1 hmem with hold | hnew
    · exact h.ends seg hold
    · obtain ⟨doc, hdoc, hend⟩ := segment_of_end store.next_segment_id hnonempty
      rw [List.mem_singleton.1 hnew, hsegment, hend]
      have hfound : AList.lookup doc.1 store.pending_docs = some doc.2 := by
        rw [← hlookup]
        exact List.mem_dlookup hnodup hdoc
      refine h.below doc.1 doc.2 ?_
      rw [h.current, hfound]
      rfl

theorem Stores.save_manifest (h : Stores codec store versions contents)
    (hpending : store.pending_docs = ∅) (fault : Option CommitFault) :
    ∃ versions', Stores codec (store.save_manifest fault).2 versions' contents ∧
      (((store.save_manifest fault).1 = .ok () ∧
          versions' = { versions with committed := versions.current }) ∨
        ∃ e, (store.save_manifest fault).1 = .error e ∧
          (versions' = versions ∨ versions' = { versions with committed := versions.current })) := by
  have hcontents : contents.length = store.segments.length := by
    rw [← h.readers.length_eq, ← h.segments, List.length_map]
  have hsaved : Stores codec { store with storage := { store.storage with
      manifest := some { segments := store.segments, next_segment_id := store.next_segment_id } } }
      { versions with committed := versions.current } contents := by
    refine ⟨h.readers.imp fun reader docs hone => ⟨hone.file, hone.offsets⟩, h.segments, h.current,
      h.cached, ⟨store.segments.length, Nat.le_refl _, ?_, fun id => ?_⟩, h.below, h.ends⟩
    · rw [List.take_length]
      rfl
    · rw [← hcontents, List.take_length]
      dsimp only
      rw [h.current id, hpending]
      rfl
  unfold UnifiedDocumentStore.save_manifest
  grind

/-- **The commit.** -/
theorem Stores.commit (h : Stores codec store versions contents) {fault : Option CommitFault}
    (hserved : store.pending_docs.keys ≠ [] → CanCommit codec store fault) :
    ∃ contents' versions', Stores codec (store.commit codec fault).2 versions' contents' ∧
      (((store.commit codec fault).1 = .ok () ∧
          versions' = { versions with committed := versions.current }) ∨
        ∃ e, (store.commit codec fault).1 = .error e ∧
          (versions' = versions ∨ versions' = { versions with committed := versions.current })) := by
  unfold UnifiedDocumentStore.commit
  by_cases hnil : store.pending_docs.keys = []
  · have hpending : store.pending_docs = ∅ := AList.ext (List.map_eq_nil_iff.1 hnil)
    rw [if_pos hnil]
    exact ⟨contents, h.save_manifest hpending fault⟩
  · obtain ⟨hfault, hfew, hjson, hfree⟩ := hserved hnil
    obtain ⟨store', hadd, hpending, hstores⟩ := h.add_segment hnil hfew hjson hfree
    rw [if_neg hnil]
    have hnone : segment_fault fault = none := by
      unfold segment_fault
      simp
    rw [hnone, hadd]
    exact ⟨_, hstores.save_manifest hpending fault⟩

/-! ## Restarts -/

/-- `open`'s counter is above every segment, where none ends at the greatest id. -/
theorem next_after_above {segments : List DocumentSegment}
    (h : ∀ segment ∈ segments, segment.end_doc_id ≠ MAX_SEQ) :
    ∀ segment ∈ segments, segment.end_doc_id < next_after segments := by
  have hgen : ∀ (segments : List DocumentSegment) (n : UInt64),
      (∀ segment ∈ segments, segment.end_doc_id ≠ MAX_SEQ) →
      n ≤ segments.foldl raise_past n ∧
        ∀ segment ∈ segments, segment.end_doc_id < segments.foldl raise_past n := by
    intro segments
    induction segments with
    | nil => simp
    | cons segment segments ih =>
        intro n hmax
        have hone : n ≤ raise_past n segment ∧ segment.end_doc_id < raise_past n segment := by
          grind [raise_past, lt_succ]
        grind
  exact (hgen segments 1 h).2

theorem load_eq (storage : DocStorage) :
    (load storage : UnifiedDocumentStore Document).storage = storage ∧
      (load storage : UnifiedDocumentStore Document).segments = listed storage ∧
      (load storage : UnifiedDocumentStore Document).pending_docs = ∅ ∧
      (load storage : UnifiedDocumentStore Document).next_doc_id = next_after (listed storage) ∧
      (load storage : UnifiedDocumentStore Document).readers =
        (listed storage).map (fun segment => { segment, offsets := none }) ∧
      (load storage : UnifiedDocumentStore Document).doc_cache = ∅ := by
  unfold load listed
  cases storage.manifest with
  | none => exact ⟨rfl, rfl, rfl, rfl, rfl, rfl⟩
  | some manifest => exact ⟨rfl, rfl, rfl, rfl, rfl, rfl⟩

theorem ReadersHold.reader_of (h : ReadersHold codec storage readers contents) (hmem : docs ∈ contents) :
    ∃ reader ∈ readers, ReaderHolds codec storage reader docs := by
  induction h with
  | nil => cases hmem
  | cons hone _ ih =>
      grind

theorem ReadersHold.within (h : ReadersHold codec storage readers contents) (hdoc : newest contents id = some doc) :
    ∃ reader ∈ readers, id ≤ reader.segment.end_doc_id := by
  obtain ⟨docs, hmem, hlookup⟩ := List.exists_of_findSome?_eq_some hdoc
  obtain ⟨reader, hreader, hholds⟩ := h.reader_of (List.mem_reverse.1 hmem)
  obtain ⟨file, -, hsegment⟩ := hholds.file
  exact ⟨reader, hreader, (hsegment.range _ (List.of_mem_dlookup hlookup)).2⟩

/-- **The restart.** -/
theorem Stores.reopen (h : Stores codec store versions contents) :
    ∃ contents', Stores codec (load store.storage)
      { versions with current := versions.committed } contents' := by
  obtain ⟨hstorage, hsegments, hpending, hnext, hreaders, hcache⟩ :=
    @load_eq Document store.storage
  obtain ⟨k, hk, hlisted, hcommitted⟩ := h.committed
  have htaken : (store.readers.take k).map (·.segment) = listed store.storage := by
    rw [List.map_take, h.segments, hlisted]
  have hfirst : ReadersHold codec store.storage (store.readers.take k) (contents.take k) :=
    List.forall₂_take k h.readers
  have hfresh : ReadersHold codec store.storage
      ((listed store.storage).map fun segment => { segment, offsets := none }) (contents.take k) := by
    rw [← htaken, List.map_map]
    exact List.forall₂_map_left_iff.2 (hfirst.imp fun reader docs hone => ⟨hone.file, Or.inl rfl⟩)
  have hends : ∀ segment ∈ listed store.storage, segment.end_doc_id < next_after (listed store.storage) := by
    refine next_after_above fun segment hmem => ?_
    rw [hlisted] at hmem
    exact ne_max_of_lt (h.ends segment (List.mem_of_mem_take hmem))
  refine ⟨contents.take k, ?_, ?_, fun id => ?_, fun id doc hdoc => ?_, ⟨_, Nat.le_refl _, ?_, ?_⟩,
    fun id doc hdoc => ?_, ?_⟩
  · grind
  · rw [hreaders, hsegments, List.map_map]
    exact List.map_id _
  · rw [hpending, AList.lookup_empty]
    exact hcommitted id
  · rw [hcache, AList.lookup_empty] at hdoc
    cases hdoc
  · grind
  · grind
  · grind [ReadersHold.within]
  grind

end Laurus
