import Laurus.Storage.Model.Files
import Laurus.Storage.Model.Structured
import Mathlib.Data.UInt

/-!
# The document store (`store/document.rs`)

Documents wait in `pending_docs` until a commit writes them to a segment's
file and the manifest names it; a segment's reader keeps where in the file
each document lies. A file is kept under its segment's id, of which its name
is made, and the manifest as the value that is read from it. A commit may fail
at either write, which the `CommitFault` says.

`doc_cache` is the entries of the `lru` crate's cache. Which of them an
insertion evicts is the crate's to say, and is an argument `evicted` of the
calls that insert.
-/

namespace Laurus

open StructReader StructWriter

/-- `DocumentSegment`. -/
structure DocumentSegment where
  id : UInt32
  start_doc_id : UInt64
  end_doc_id : UInt64
  doc_count : ℕ
  deriving DecidableEq, Repr

/-- `DocumentSegment::contains`. -/
def DocumentSegment.contains (segment : DocumentSegment) (doc_id : UInt64) : Bool :=
  segment.start_doc_id ≤ doc_id ∧ doc_id ≤ segment.end_doc_id

/-- `DocumentSegment::file_name`. -/
def DocumentSegment.file_name (segment : DocumentSegment) : String :=
  let digits := Nat.toDigits 10 segment.id.toNat
  let padded := String.ofList (List.replicate (6 - digits.length) '0' ++ digits)
  s!"doc_segment_{padded}.docs"

/-- `StoreManifest`. -/
structure StoreManifest where
  segments : List DocumentSegment
  next_segment_id : UInt32
  deriving DecidableEq, Repr

/-- A map from document ids. -/
abbrev Docs (Document : Type) := AList fun _ : UInt64 => Document

/-- A segment's documents, by where in its file they are. -/
abbrev Offsets := AList fun _ : UInt64 => ℕ

/-- What the store has on disk. -/
structure DocStorage where
  manifest : Option StoreManifest
  /-- The segment files, by segment id. -/
  files : AList fun _ : UInt32 => Bytes

/-- Where a commit fails. -/
inductive CommitFault
  /-- Writing the segment file fails. -/
  | segment (fault : WriteFault)
  /-- Saving the manifest fails; its rename may have been done. -/
  | manifest (e : LaurusError) (renamed : Bool)
  deriving DecidableEq, Repr

/-- The fault of the segment's write. -/
def segment_fault : Option CommitFault → Option WriteFault
  | some (.segment fault) => some fault
  | _ => none

/-- The checksum, and `serde_json` on documents. -/
structure DocCodec (Document : Type) where
  crc32 : Bytes → UInt32
  to_vec : Document → Except String Bytes
  from_slice : Bytes → Except String Document

variable {Document : Type} (codec : DocCodec Document)

/-! ## Writing a segment -/

/-- The loop of `write_segment`, over the documents in the order of their ids. -/
def write_docs : List (Σ _ : UInt64, Document) → Write Unit
  | [] => pure ()
  | ⟨id, doc⟩ :: docs => do
    match codec.to_vec doc with
    | .error e => throw (LaurusError.index s!"failed to serialize document: {e}")
    | .ok json =>
      write_u64 id
      write_bytes json
      write_docs docs

/-- What `write_segment` writes before the footer. -/
def write_segment_body (docs : List (Σ _ : UInt64, Document)) : Write Unit := do
  if 2 ^ 32 ≤ docs.length then
    throw (LaurusError.InvalidOperation s!"document count {docs.length} exceeds u32::MAX")
  write_u32 (UInt32.ofNat docs.length)
  write_docs codec docs

/-- The segment file of documents. -/
def segment_file (docs : List (Σ _ : UInt64, Document)) : Except LaurusError Bytes :=
  match write_segment_body codec docs StructWriter.new with
  | .error e => .error e
  | .ok ((), w) => w.close codec.crc32

/-- The documents in the order of their ids. -/
def sorted_docs (docs : Docs Document) : List (Σ _ : UInt64, Document) :=
  docs.entries.mergeSort fun first second => first.1 ≤ second.1

/-- The description of documents that are in order. -/
def segment_of (segment_id : UInt32) (docs : List (Σ _ : UInt64, Document)) : DocumentSegment :=
  { id := segment_id
    start_doc_id := (docs.head?.map Sigma.fst).getD 0
    end_doc_id := (docs.getLast?.map Sigma.fst).getD 0
    doc_count := docs.length }

/-- `write_segment`: a file that was opened and not finished is left, empty
or with the fault's part of its bytes. -/
def DocStorage.write_segment (storage : DocStorage) (segment_id : UInt32) (docs : Docs Document)
    (fault : Option WriteFault) : Except LaurusError DocumentSegment × DocStorage :=
  let docs := sorted_docs docs
  let leave (bytes : Bytes) : DocStorage :=
    { storage with files := AList.insert segment_id bytes storage.files }
  if docs = [] then (.error (LaurusError.internal "cannot write empty document segment"), storage)
  else match fault, segment_file codec docs with
  | some (.create e), _ => (.error e, storage)
  | _, .error e => (.error e, leave [])
  | some (.write e written), .ok bytes => (.error e, leave (bytes.take written))
  | none, .ok bytes => (.ok (segment_of segment_id docs), leave bytes)

/-! ## Reading a segment -/

/-- `DocumentSegmentReader`. -/
structure DocumentSegmentReader where
  segment : DocumentSegment
  /-- Built on the first read. -/
  offsets : Option Offsets

/-- The loop of `build_index`. -/
def index_docs : ℕ → Offsets → Read Offsets
  | 0, offsets => return offsets
  | count + 1, offsets => do
    let r ← get
    let doc_id ← read_u64
    let _json ← read_bytes
    index_docs count (AList.insert doc_id r.position offsets)

/-- `build_index` of a file's bytes. -/
def index_file (segment : DocumentSegment) : Read Offsets := do
  let doc_count ← read_u32
  let r ← get
  let doc_count ← Read.liftE (checked_capacity_u64 doc_count.toNat (8 + 1) r.remaining
    "document segment doc count")
  reserve doc_count
  let offsets ← index_docs doc_count ∅
  expect_checksum codec.crc32 s!"document segment {segment.file_name}"
  return offsets

/-- `read_entry`. -/
def read_entry (segment : DocumentSegment) (doc_id : UInt64) (offset : ℕ) : Read Document := do
  let _ ← seek (.Start offset)
  let found ← read_u64
  if found ≠ doc_id then
    throw (Fault.error (LaurusError.index
      (s!"document segment {segment.file_name}: expected document {doc_id} at offset {offset}, " ++
        s!"found {found} — the file is corrupted")))
  let json ← read_bytes
  match codec.from_slice json with
  | .ok doc => return doc
  | .error e => throw (Fault.error (LaurusError.index s!"failed to deserialize document: {e}"))

/-- The loop of a reader's `get_documents_batch`. -/
def read_entries (segment : DocumentSegment) : List (UInt64 × ℕ) → Docs Document → Read (Docs Document)
  | [], results => return results
  | (doc_id, offset) :: indexed, results => do
    let doc ← read_entry codec segment doc_id offset
    read_entries segment indexed (AList.insert doc_id doc results)

namespace DocumentSegmentReader

variable (storage : DocStorage) (reader : DocumentSegmentReader)

/-- `open_input` of the segment's file, and a read of it. -/
def read_file {α : Type} (p : Read α) : Except Fault α :=
  match AList.lookup reader.segment.id storage.files with
  | none => .error (Fault.error
      (LaurusError.storage s!"File not found: {reader.segment.file_name}"))
  | some file => match p (StructReader.new file) with
    | .ok (a, _) => .ok a
    | .error e => .error e

/-- `offsets`: a failed build is not remembered. -/
def load_offsets : Except Fault Offsets × DocumentSegmentReader :=
  match reader.offsets with
  | some offsets => (.ok offsets, reader)
  | none => match reader.read_file storage (index_file codec reader.segment) with
    | .ok built => (.ok built, { reader with offsets := some built })
    | .error e => (.error e, reader)

/-- `DocumentSegmentReader::get_document`. -/
def get_document (doc_id : UInt64) : Except Fault (Option Document) × DocumentSegmentReader :=
  if reader.segment.contains doc_id then
    match reader.load_offsets codec storage with
    | (.error e, reader) => (.error e, reader)
    | (.ok offsets, reader) =>
      match AList.lookup doc_id offsets with
      | none => (.ok none, reader)
      | some offset =>
        (match reader.read_file storage (read_entry codec reader.segment doc_id offset) with
          | .ok doc => .ok (some doc)
          | .error e => .error e, reader)
  else (.ok none, reader)

/-- `DocumentSegmentReader::get_documents_batch`, of a set of ids. -/
def get_documents_batch (doc_ids : List UInt64) :
    Except Fault (Docs Document) × DocumentSegmentReader :=
  if doc_ids.any reader.segment.contains then
    match reader.load_offsets codec storage with
    | (.error e, reader) => (.error e, reader)
    | (.ok offsets, reader) =>
      let indexed := doc_ids.filterMap fun id =>
        (AList.lookup id offsets).map fun offset => (id, offset)
      if indexed = [] then (.ok ∅, reader)
      else
        let indexed := indexed.mergeSort fun first second => first.2 ≤ second.2
        (reader.read_file storage (read_entries codec reader.segment indexed ∅), reader)
  else (.ok ∅, reader)

end DocumentSegmentReader

/-! ## The store -/

/-- `UnifiedDocumentStore`. -/
structure UnifiedDocumentStore (Document : Type) where
  storage : DocStorage
  segments : List DocumentSegment
  next_segment_id : UInt32
  pending_docs : Docs Document
  next_doc_id : UInt64
  /-- One for each of `segments`, in the same order. -/
  readers : List DocumentSegmentReader
  doc_cache : Docs Document

/-- Insertions in the cache, and what they evict. -/
def cache_put (cache : Docs Document) (docs : Docs Document) (evicted : List UInt64) :
    Docs Document :=
  evicted.foldr AList.erase (docs ∪ cache)

namespace UnifiedDocumentStore

/-- The counter past a segment's last document. -/
def raise_past (next_doc_id : UInt64) (segment : DocumentSegment) : UInt64 :=
  if next_doc_id ≤ segment.end_doc_id then segment.end_doc_id + 1 else next_doc_id

/-- `open`'s counter: one past the last document of every segment. -/
def next_after (segments : List DocumentSegment) : UInt64 := segments.foldl raise_past 1

/-- `open`: the segments are the manifest's. -/
def load (storage : DocStorage) : UnifiedDocumentStore Document :=
  match storage.manifest with
  | some manifest =>
    { storage, segments := manifest.segments, next_segment_id := manifest.next_segment_id,
      pending_docs := ∅, next_doc_id := next_after manifest.segments,
      readers := manifest.segments.map fun segment => { segment, offsets := none },
      doc_cache := ∅ }
  | none =>
    { storage, segments := [], next_segment_id := 0, pending_docs := ∅, next_doc_id := 1,
      readers := [], doc_cache := ∅ }

/-- `add_document`. -/
def add_document (store : UnifiedDocumentStore Document) (doc : Document) :
    UInt64 × UnifiedDocumentStore Document :=
  let doc_id := store.next_doc_id
  (doc_id, { store with
    next_doc_id := doc_id + 1
    pending_docs := AList.insert doc_id doc store.pending_docs })

/-- `put_document_with_id`. -/
def put_document_with_id (store : UnifiedDocumentStore Document) (doc_id : UInt64)
    (doc : Document) : UnifiedDocumentStore Document :=
  { store with
    pending_docs := AList.insert doc_id doc store.pending_docs
    doc_cache := AList.erase doc_id store.doc_cache
    next_doc_id := if store.next_doc_id ≤ doc_id then doc_id + 1 else store.next_doc_id }

/-- `add_segment`. -/
def add_segment (store : UnifiedDocumentStore Document) (docs : Docs Document)
    (fault : Option WriteFault) : Except LaurusError Unit × UnifiedDocumentStore Document :=
  match store.storage.write_segment codec store.next_segment_id docs fault with
  | (.error e, storage) => (.error e, { store with storage })
  | (.ok segment, storage) =>
    (.ok (), { store with
      storage
      segments := store.segments ++ [segment]
      readers := store.readers ++ [{ segment, offsets := none }]
      next_segment_id := store.next_segment_id + 1 })

/-- `commit` after the pending documents. -/
def save_manifest (store : UnifiedDocumentStore Document) (fault : Option CommitFault) :
    Except LaurusError Unit × UnifiedDocumentStore Document :=
  let manifest : StoreManifest :=
    { segments := store.segments, next_segment_id := store.next_segment_id }
  let saved := { store with storage := { store.storage with manifest := some manifest } }
  match fault with
  | some (.manifest e renamed) => (.error e, if renamed then saved else store)
  | _ => (.ok (), saved)

/-- `commit`: the pending documents are taken before their segment is
written. -/
def commit (store : UnifiedDocumentStore Document) (fault : Option CommitFault) :
    Except LaurusError Unit × UnifiedDocumentStore Document :=
  if store.pending_docs.keys = [] then store.save_manifest fault
  else
    match { store with pending_docs := ∅ }.add_segment codec store.pending_docs
      (segment_fault fault) with
    | (.error e, store) => (.error e, store)
    | (.ok (), store) => store.save_manifest fault

/-- The search of `get_document`, newest segment first. -/
def find_document (storage : DocStorage) (doc_id : UInt64) : List DocumentSegmentReader →
    Except Fault (Option Document) × List DocumentSegmentReader
  | [] => (.ok none, [])
  | reader :: readers =>
    match reader.get_document codec storage doc_id with
    | (.ok none, reader) =>
      let (found, readers) := find_document storage doc_id readers
      (found, reader :: readers)
    | (found, reader) => (found, reader :: readers)

/-- `get_document`: pending documents, the cache, and then the segments. -/
def get_document (store : UnifiedDocumentStore Document) (doc_id : UInt64)
    (evicted : List UInt64) :
    Except Fault (Option Document) × UnifiedDocumentStore Document :=
  match AList.lookup doc_id store.pending_docs, AList.lookup doc_id store.doc_cache with
  | some doc, _ => (.ok (some doc), store)
  | none, some doc => (.ok (some doc), store)
  | none, none =>
    let (found, readers) := find_document codec store.storage doc_id store.readers.reverse
    let store := { store with readers := readers.reverse }
    match found with
    | .ok (some doc) => (.ok (some doc), { store with
        doc_cache := cache_put store.doc_cache (AList.insert doc_id doc ∅) evicted })
    | found => (found, store)

/-- The segments' part of a batch, oldest segment first: what a later one
holds replaces what an earlier one did. -/
def load_batch (storage : DocStorage) (remaining : List UInt64) :
    List DocumentSegmentReader → Docs Document →
      Except Fault (Docs Document) × List DocumentSegmentReader
  | [], loaded => (.ok loaded, [])
  | reader :: readers, loaded =>
    match reader.get_documents_batch codec storage remaining with
    | (.error e, reader) => (.error e, reader :: readers)
    | (.ok found, reader) =>
      let (result, readers) := load_batch storage remaining readers (found ∪ loaded)
      (result, reader :: readers)

/-- The pending document of an id, taken into the results. -/
def take_pending (pending_docs results : Docs Document) (doc_id : UInt64) : Docs Document :=
  match AList.lookup doc_id pending_docs with
  | some doc => AList.insert doc_id doc results
  | none => results

/-- The cached document of an id, taken where a result is missing. -/
def take_cached (cache results : Docs Document) (doc_id : UInt64) : Docs Document :=
  if doc_id ∈ results then results
  else match AList.lookup doc_id cache with
    | some doc => AList.insert doc_id doc results
    | none => results

/-- `get_documents_batch`. -/
def get_documents_batch (store : UnifiedDocumentStore Document) (doc_ids : List UInt64)
    (evicted : List UInt64) : Except Fault (Docs Document) × UnifiedDocumentStore Document :=
  if doc_ids = [] then (.ok ∅, store)
  else
    let id_set := doc_ids.dedup
    let results := doc_ids.foldl (take_pending store.pending_docs) ∅
    let results := id_set.foldl (take_cached store.doc_cache) results
    let remaining := id_set.filter fun id => id ∉ results
    if remaining = [] then (.ok results, store)
    else
      let (loaded, readers) := load_batch codec store.storage remaining store.readers ∅
      let store := { store with readers }
      match loaded with
      | .error e => (.error e, store)
      | .ok loaded =>
        (.ok (loaded ∪ results), if loaded.keys = [] then store else { store with
          doc_cache := cache_put store.doc_cache loaded evicted })

variable {Value : Type} (fields : Document → String → Option Value)

/-- The values of documents that are pending or cached, and the other ids. -/
def held_values (store : UnifiedDocumentStore Document) (field : String) :
    List UInt64 → (AList fun _ : UInt64 => Value) × List UInt64 →
      (AList fun _ : UInt64 => Value) × List UInt64
  | [], found => found
  | doc_id :: doc_ids, (results, remaining) =>
    match (AList.lookup doc_id store.pending_docs).or (AList.lookup doc_id store.doc_cache) with
    | some doc => match fields doc field with
      | some value => held_values store field doc_ids (AList.insert doc_id value results, remaining)
      | none => held_values store field doc_ids (results, remaining)
    | none => held_values store field doc_ids (results, List.insert doc_id remaining)

/-- The values of loaded documents. -/
def loaded_values (field : String) :
    List (Σ _ : UInt64, Document) → (AList fun _ : UInt64 => Value) → AList fun _ : UInt64 => Value
  | [], results => results
  | ⟨doc_id, doc⟩ :: loaded, results =>
    match fields doc field with
    | some value => loaded_values field loaded (AList.insert doc_id value results)
    | none => loaded_values field loaded results

/-- `get_field_values_batch`. -/
def get_field_values_batch (store : UnifiedDocumentStore Document) (doc_ids : List UInt64)
    (field : String) :
    Except Fault (AList fun _ : UInt64 => Value) × UnifiedDocumentStore Document :=
  let (results, remaining) := held_values fields store field doc_ids (∅, [])
  if remaining = [] then (.ok results, store)
  else
    let (loaded, readers) := load_batch codec store.storage remaining store.readers ∅
    let store := { store with readers }
    match loaded with
    | .error e => (.error e, store)
    | .ok loaded => (.ok (loaded_values fields field loaded.entries results), store)

end UnifiedDocumentStore

end Laurus
